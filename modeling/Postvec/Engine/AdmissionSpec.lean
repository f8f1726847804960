import Mathlib.Data.Set.Card
import Postvec.Engine.Admission
import Postvec.Lib.Paths

/-!
# Which startups are admitted

What a startup should refuse (`Admissible`) is said on the graph of the descriptors. The walk passes
over a model that is planned already before it looks at anything else, so it sees a model on the
first path to it only (`Paths.First`).

* `walk_iff`: the walk ends well exactly if what it saw is in order (`Admitted`);
* **`closure_exact_iff`**: it is exact in every order of the roots, unless some order hides a
  disabled root or a long chain (`hidden`).
-/

namespace Postvec.Engine.Admission

open Machine.Paths List

variable {P : Type}

/-! ## 1. What should be admitted -/

section statement

variable (read : P → Except Text Descriptor) (index : DescriptorIndex P) (ceiling : Nat)

/-- The dependencies of a model, if it has a descriptor. -/
def next (name : Text) : List Text :=
  match descriptorOf read index name with
  | .ok (_, d) => d.dependencies
  | .error _ => []

/-- There is one descriptor, it can be read, and it has the name of its directory. -/
def Described (name : Text) : Prop := ∃ path d, descriptorOf read index name = .ok (path, d)

def Enabled (name : Text) : Prop :=
  ∃ path d, descriptorOf read index name = .ok (path, d) ∧ d.enabled = true

def Disabled (name : Text) : Prop :=
  ∃ path d, descriptorOf read index name = .ok (path, d) ∧ d.enabled = false

/-- What holds of the reached models in either reading. -/
structure Sound (roots : List Text) : Prop where
  described : ∀ v, Reaches (next read index) roots v → Described read index v
  acyclic : Acyclic (next read index) roots
  fits : {v | Reaches (next read index) roots v}.encard ≤ ceiling

/-- What a startup should admit. -/
structure Admissible (roots : List Text) : Prop extends Sound read index ceiling roots where
  enabled : ∀ r ∈ roots, Enabled read index r
  short : ∀ r ∈ roots, ∀ n v, Steps (next read index) n r v → n ≤ maxDependencyDepth

/-- What the walk admits: a root that an earlier root reaches, and a chain that is not the first to
    its end, are not looked at. -/
structure Admitted (roots : List Text) : Prop extends Sound read index ceiling roots where
  enabled : ∀ i r, roots[i]? = some r → ¬ Reaches (next read index) (roots.take i) r →
    Enabled read index r
  short : ∀ path v, First (next read index) roots path v → path.length ≤ maxDependencyDepth + 1

/-- A result that says exactly whether the roots are admissible, and which models they reach. -/
structure Exact (roots : List Text) (result : Except (Refusal P) Closure) : Prop where
  admits : (∃ c, result = .ok c) ↔ Admissible read index ceiling roots
  planned : ∀ c, result = .ok c → ∀ v, v ∈ c.planned ↔ Reaches (next read index) roots v
  disabled : ∀ c, result = .ok c → ∀ v,
    v ∈ c.disabled ↔ Reaches (next read index) roots v ∧ Disabled read index v

/-- In this order the walk sees nothing wrong, but a root is disabled or a chain too long. -/
def Hides (roots : List Text) : Prop :=
  Admitted read index ceiling roots ∧
    ((∃ r ∈ roots, Disabled read index r) ∨
      ∃ r ∈ roots, ∃ n v, Steps (next read index) n r v ∧ maxDependencyDepth < n)

end statement

/-! ## 2. The state of the walk after a path -/

section spec

variable {read : P → Except Text Descriptor} {index : DescriptorIndex P} {ceiling : Nat}
  {roots : List Text} {path : List Nat} {k : Nat} {name : Text} {w : Walk}

variable {d : Descriptor} {file : P}

theorem next_eq (h : descriptorOf read index name = .ok (file, d)) :
    next read index name = d.dependencies := by
  unfold next
  rw [h]

theorem described_iff :
    Described read index name ↔ Enabled read index name ∨ Disabled read index name := by
  constructor
  · intro h
    obtain ⟨file, d, h⟩ := h
    cases hd : d.enabled
    · exact .inr ⟨file, d, h, hd⟩
    · exact .inl ⟨file, d, h, hd⟩
  · intro h
    rcases h with ⟨file, d, h, _⟩ | ⟨file, d, h, _⟩ <;> exact ⟨file, d, h⟩

theorem disabled_iff (h : descriptorOf read index name = .ok (file, d)) :
    Disabled read index name ↔ d.enabled = false := by
  refine ⟨fun h' => ?_, fun h' => ⟨file, d, h, h'⟩⟩
  obtain ⟨_, d', hd', he'⟩ := h'
  cases h.symm.trans hd'
  exact he'

theorem Enabled.not_disabled (h : Enabled read index name) : ¬ Disabled read index name := by
  obtain ⟨_, d, hd, he⟩ := h
  rw [disabled_iff hd, he]
  exact Bool.noConfusion

variable (read index ceiling roots) in
/-- Before the walk takes place `k` below `path`: planned is what the paths before it lead to, in
    progress is what lies on it. -/
structure Inv (path : List Nat) (k : Nat) (w : Walk) : Prop where
  planned : ∀ v, v ∈ w.closure.planned ↔
    ∃ p, Leads (next read index) roots p v ∧ Earlier p (path ++ [k])
  visiting : ∀ v, v ∈ w.visiting ↔ ∃ p, p <+: path ∧ Leads (next read index) roots p v
  apart : ∀ v ∈ w.visiting, v ∉ w.closure.planned
  disabled : ∀ v, v ∈ w.closure.disabled ↔
    (v ∈ w.closure.planned ∨ v ∈ w.visiting) ∧ Disabled read index v
  fits : w.visiting.card + w.closure.planned.card ≤ ceiling
  described : ∀ v, v ∈ w.closure.planned ∨ v ∈ w.visiting → Described read index v
  acyclic : ∀ v ∈ w.closure.planned, ¬ Relation.TransGen (Edge (next read index)) v v

variable (read index roots) in
/-- What the walk looks at below a path is in order. -/
def Passes (path : List Nat) : Prop :=
  ∀ r v, First (next read index) roots (path ++ r) v →
    (path ++ r).length ≤ maxDependencyDepth + 1 ∧ ((path ++ r).length = 1 → Enabled read index v)

variable (read index ceiling roots) in
/-- How a part of the walk ends. -/
def Ends (path : List Nat) (k : Nat) (passes : Prop) : Except (Refusal P) Walk → Prop
  | .ok w => Inv read index ceiling roots path k w ∧ passes
  | .error _ => ¬ Admitted read index ceiling roots

theorem Ends.imp {passes passes' : Prop} {r : Except (Refusal P) Walk}
    (h : Ends read index ceiling roots path k passes r) (himp : passes → passes') :
    Ends read index ceiling roots path k passes' r := by
  cases r with
  | error e => exact h
  | ok w => exact ⟨h.1, himp h.2⟩

section Invariant

variable (hi : Inv read index ceiling roots path k w)
include hi

/-- What is planned is planned with all it needs. -/
theorem Inv.closed {u v : Text} (hu : u ∈ w.closure.planned) (he : Edge (next read index) u v) :
    v ∈ w.closure.planned := by
  obtain ⟨p, hp, hlt⟩ := (hi.planned u).mp hu
  obtain ⟨i, hi'⟩ := List.getElem?_of_mem he
  exact (hi.planned v).mpr ⟨p ++ [i], hp.snoc hi', hlt.append_left _⟩

theorem Inv.reaches {v : Text} (h : v ∈ w.closure.planned ∨ v ∈ w.visiting) :
    Reaches (next read index) roots v := by
  rcases h with h | h
  · obtain ⟨p, hp, _⟩ := (hi.planned v).mp h
    exact hp.reaches
  · obtain ⟨p, _, hp⟩ := (hi.visiting v).mp h
    exact hp.reaches

variable (hl : Leads (next read index) roots (path ++ [k]) name)
include hl

/-- A model that is not planned is met on its first path. -/
theorem Inv.first (hn : name ∉ w.closure.planned) :
    First (next read index) roots (path ++ [k]) name :=
  ⟨hl, fun p hp he => hn ((hi.planned name).mpr ⟨p, hp, he⟩)⟩

/-- Passing over a planned model. -/
theorem Inv.skip (hn : name ∈ w.closure.planned) :
    Inv read index ceiling roots path (k + 1) w ∧ Passes read index roots (path ++ [k]) := by
  obtain ⟨p₀, hp₀, hlt₀⟩ := (hi.planned name).mp hn
  -- a path through the model has a detour that comes before it
  have hdetour : ∀ {r v}, Leads (next read index) roots (path ++ [k] ++ r) v →
      Leads (next read index) roots (p₀ ++ r) v := by
    intro r v hv
    cases r with
    | nil =>
      rw [append_nil] at hv ⊢
      exact hl.unique hv ▸ hp₀
    | cons i r => exact hp₀.trans (hl.beyond hv (cons_ne_nil _ _))
  refine ⟨{ hi with planned := fun v => ⟨fun hv => ?_, fun hv => ?_⟩ }, fun r v hf => ?_⟩
  · obtain ⟨p, hp, hlt⟩ := (hi.planned v).mp hv
    exact ⟨p, hp, hlt.succ⟩
  · obtain ⟨p, hp, hlt⟩ := hv
    rcases hlt.succ_cases with hlt | ⟨r, hr⟩
    · exact (hi.planned v).mpr ⟨p, hp, hlt⟩
    · rw [hr, append_cons] at hp
      exact (hi.planned v).mpr ⟨_, hdetour hp, hlt₀.append_left _⟩
  · exact absurd ((hlt₀.append_left r).append r) (hf.2 _ (hdetour hf.1))

/-- Going below a model. -/
theorem Inv.enter (hn : name ∉ w.closure.planned)
    (hc : (insert name w.visiting).card + w.closure.planned.card ≤ ceiling)
    (hd : descriptorOf read index name = .ok (file, d)) :
    Inv read index ceiling roots (path ++ [k]) 0 ⟨insert name w.visiting, { w.closure with
      disabled := if d.enabled then w.closure.disabled else insert name w.closure.disabled }⟩ := by
  have hdis := disabled_iff hd
  constructor
  · intro v
    rw [hi.planned v]
    exact exists_congr fun p => and_congr_right fun _ => ⟨fun h => h.append _, fun h => h.of_zero⟩
  · intro v
    rw [Finset.mem_insert, hi.visiting v]
    constructor
    · intro h
      rcases h with h | ⟨p, hp, hv⟩
      · exact ⟨_, prefix_rfl, h ▸ hl⟩
      · exact ⟨p, hp.trans (prefix_append _ _), hv⟩
    · intro h
      obtain ⟨p, hp, hv⟩ := h
      rcases prefix_concat_iff.mp hp with he | hp
      · exact .inl ((he ▸ hv).unique hl)
      · exact .inr ⟨p, hp, hv⟩
  · intro v hv
    rcases Finset.mem_insert.mp hv with hv | hv
    · exact hv ▸ hn
    · exact hi.apart v hv
  · intro v
    have hold := hi.disabled v
    by_cases hv : v = name
    · cases hv
      cases he : d.enabled
      · simp [hdis, he]
      · simp only [if_true, hold, hdis, he]
        simp
    · cases he : d.enabled
      · simp only [Bool.false_eq_true, if_false, Finset.mem_insert, hv, false_or]
        exact hold
      · simp only [if_true, Finset.mem_insert, hv, false_or]
        exact hold
  · exact hc
  · intro v hv
    rcases hv with hv | hv
    · exact hi.described v (.inl hv)
    · rcases Finset.mem_insert.mp hv with hv | hv
      · exact hv ▸ ⟨file, d, hd⟩
      · exact hi.described v (.inr hv)
  · exact hi.acyclic

/-- Coming back from a model. -/
theorem Inv.leave {w' : Walk} (hv : name ∉ w.visiting)
    (hd : descriptorOf read index name = .ok (file, d))
    (hi' : Inv read index ceiling roots (path ++ [k]) d.dependencies.length w') :
    Inv read index ceiling roots path (k + 1)
      ⟨w'.visiting.erase name, { w'.closure with planned := insert name w'.closure.planned }⟩ := by
  have hin : name ∈ w'.visiting := (hi'.visiting name).mpr ⟨_, prefix_rfl, hl⟩
  have hout : name ∉ w'.closure.planned := hi'.apart name hin
  have hmem : ∀ v, (v ∈ insert name w'.closure.planned ∨ v ∈ w'.visiting.erase name) ↔
      v ∈ w'.closure.planned ∨ v ∈ w'.visiting := by
    intro v
    by_cases hv : v = name
    · simp [hv, hin]
    · simp [hv]
  constructor
  · intro v
    rw [Finset.mem_insert, hi'.planned v]
    constructor
    · intro h
      rcases h with h | ⟨p, hp, hlt⟩
      · exact ⟨_, h ▸ hl, earlier_append_of_lt [] [] (Nat.lt_succ_self k)⟩
      · rw [append_assoc, singleton_append] at hlt
        exact ⟨p, hp, hlt.succ⟩
    · intro h
      obtain ⟨p, hp, hlt⟩ := h
      rcases hlt.succ_cases with hlt | ⟨r, hr⟩
      · exact .inr ⟨p, hp, hlt.append _⟩
      · rw [hr, append_cons] at hp
        by_cases he : r = []
        · rw [he, append_nil] at hp
          exact .inl (hp.unique hl)
        · have hbelow := (hl.beyond hp he).earlier_length
          rw [next_eq hd] at hbelow
          exact .inr ⟨_, hp, hbelow.under⟩
  · intro v
    rw [Finset.mem_erase, hi'.visiting v]
    constructor
    · intro h
      obtain ⟨hne, p, hp, hv⟩ := h
      rcases prefix_concat_iff.mp hp with he | hp
      · exact absurd ((he ▸ hv).unique hl) hne
      · exact ⟨p, hp, hv⟩
    · intro h
      obtain ⟨p, hp, hpv⟩ := h
      refine ⟨fun e => hv ?_, p, hp.trans (prefix_append _ _), hpv⟩
      exact (hi.visiting name).mpr ⟨p, hp, e ▸ hpv⟩
  · intro v hv hv'
    obtain ⟨hne, hv⟩ := Finset.mem_erase.mp hv
    rcases Finset.mem_insert.mp hv' with hv' | hv'
    · exact hne hv'
    · exact hi'.apart v hv hv'
  · intro v
    rw [hmem, hi'.disabled v]
  · have := hi'.fits
    have hpos : 0 < w'.visiting.card := Finset.card_pos.mpr ⟨name, hin⟩
    rw [Finset.card_erase_of_mem hin, Finset.card_insert_of_notMem hout]
    omega
  · intro v h
    exact hi'.described v ((hmem v).mp h)
  · intro v hv
    rcases Finset.mem_insert.mp hv with hv | hv
    · rw [hv]
      intro hcyc
      -- all it needs is planned, so a cycle would have it planned before
      refine hout (closed_transGen (fun a ha b he => hi'.closed ha he) (fun b he => ?_) hcyc)
      obtain ⟨i, hb⟩ := List.getElem?_of_mem he
      have hlt : i < d.dependencies.length := by
        rw [← next_eq hd]
        exact (List.getElem?_eq_some_iff.mp hb).1
      exact (hi'.planned b).mpr ⟨_, hl.snoc hb, earlier_append_of_lt [] [] hlt⟩
    · exact hi'.acyclic v hv

/-- More models than the ceiling are reached. -/
theorem Inv.overfull (hn : name ∉ w.closure.planned)
    (hc : ceiling < (insert name w.visiting).card + w.closure.planned.card) :
    ¬ Admitted read index ceiling roots := by
  intro h
  have hdis : Disjoint (insert name w.visiting) w.closure.planned := by
    refine Finset.disjoint_left.mpr fun v hv => ?_
    rcases Finset.mem_insert.mp hv with hv | hv
    · exact hv ▸ hn
    · exact hi.apart v hv
  have hsub : ((insert name w.visiting ∪ w.closure.planned : Finset Text) : Set Text) ⊆
      {v | Reaches (next read index) roots v} := by
    intro v hv
    rcases Finset.mem_union.mp (Finset.mem_coe.mp hv) with hv | hv
    · rcases Finset.mem_insert.mp hv with hv | hv
      · exact hv ▸ hl.reaches
      · exact hi.reaches (.inr hv)
    · exact hi.reaches (.inl hv)
  have hle := (Set.encard_le_encard hsub).trans h.fits
  rw [Set.encard_coe_eq_coe_finsetCard, Finset.card_union_of_disjoint hdis] at hle
  exact absurd (Nat.cast_le.mp hle) (Nat.not_le.mpr hc)

end Invariant

/-! ## 3. The walk -/

/-- The loop, if every visit from it ends well. -/
theorem visitAll_spec {visit : Text → Walk → Except (Refusal P) Walk}
    (hvisit : ∀ k name w, Leads (next read index) roots (path ++ [k]) name →
      Inv read index ceiling roots path k w → Ends read index ceiling roots path (k + 1)
        (Passes read index roots (path ++ [k])) (visit name w)) :
    ∀ (names : List Text) (k : Nat) (w : Walk),
      (∀ i v, names[i]? = some v → Leads (next read index) roots (path ++ [k + i]) v) →
      Inv read index ceiling roots path k w →
      Ends read index ceiling roots path (k + names.length)
        (∀ i, k ≤ i → i < k + names.length → Passes read index roots (path ++ [i]))
        (visitAll visit names w)
  | [], k, w, _, hi => ⟨hi, fun i h h' => absurd h' (Nat.not_lt.mpr h)⟩
  | name :: names, k, w, hlead, hi => by
    have hv := hvisit k name w (hlead 0 name rfl) hi
    rw [visitAll]
    cases hr : visit name w with
    | error e =>
      rw [hr] at hv
      exact hv
    | ok w₁ =>
      rw [hr] at hv
      have hrest := visitAll_spec hvisit names (k + 1) w₁ (fun i v h => by
        have := hlead (i + 1) v h
        rwa [show k + (i + 1) = k + 1 + i by omega] at this) hv.1
      rw [length_cons, show k + (names.length + 1) = k + 1 + names.length by omega]
      refine hrest.imp fun hpass i hle hlt => ?_
      rcases Nat.eq_or_lt_of_le hle with he | hgt
      · exact he ▸ hv.2
      · exact hpass i hgt hlt

/-- One visit, if the loop below it ends well. -/
theorem visit_of_below
    {left : Nat} (hbelow : ∀ k name w (names : List Text) left', left = left' + 1 →
      Leads (next read index) roots (path ++ [k]) name → next read index name = names →
      Inv read index ceiling roots (path ++ [k]) 0 w →
      Ends read index ceiling roots (path ++ [k]) names.length
        (∀ i, i < names.length → Passes read index roots (path ++ [k] ++ [i]))
        (visitAll (visit read index ceiling left' false) names w))
    (hleft : path.length + left = maxDependencyDepth + 1)
    (hl : Leads (next read index) roots (path ++ [k]) name)
    (hi : Inv read index ceiling roots path k w) :
    Ends read index ceiling roots path (k + 1) (Passes read index roots (path ++ [k]))
      (visit read index ceiling left path.isEmpty name w) := by
  unfold visit
  by_cases hn : name ∈ w.closure.planned
  · rw [if_pos hn]
    exact hi.skip hl hn
  rw [if_neg hn]
  have hfirst := hi.first hl hn
  have hlen : (path ++ [k]).length = path.length + 1 := length_append
  cases left with
  | zero =>
    intro h
    have := h.short _ _ hfirst
    omega
  | succ left =>
  dsimp only
  by_cases hv : name ∈ w.visiting
  · rw [if_pos hv]
    intro h
    obtain ⟨p, hp, hpl⟩ := (hi.visiting name).mp hv
    obtain ⟨q, rfl⟩ := hp
    rw [append_assoc] at hl
    exact h.acyclic name hpl.reaches
      (hpl.beyond hl (append_ne_nil_of_right_ne_nil _ (cons_ne_nil _ _))).transGen
  rw [if_neg hv]
  by_cases hc : (insert name w.visiting).card + w.closure.planned.card > ceiling
  · rw [if_pos hc]
    exact hi.overfull hl hn hc
  rw [if_neg hc]
  cases hd : descriptorOf read index name with
  | error e =>
    intro h
    obtain ⟨file, d, hd'⟩ := h.described name hl.reaches
    rw [hd] at hd'
    cases hd'
  | ok r =>
    obtain ⟨file, d⟩ := r
    dsimp only
    -- only a root may not be disabled, and a first path of one place is that of a root
    have hroot : path = [] → (Enabled read index name ∨ ¬ Admitted read index ceiling roots) := by
      intro he
      subst he
      by_contra hno
      obtain ⟨hno, ha⟩ := not_or.mp hno
      have hroot : roots[k]? = some name := by
        cases hl with
        | root h => exact h
        | step _ ht => exact absurd rfl ht.ne_nil
      exact hno ((not_not.mp ha).enabled k name hroot fun hr =>
        (not_first_root_iff hroot).mpr hr hfirst)
    by_cases hr : (path.isEmpty && !d.enabled) = true
    · rw [if_pos hr]
      rw [Bool.and_eq_true, Bool.not_eq_true'] at hr
      refine (hroot (List.isEmpty_iff.mp hr.1)).resolve_left fun hen => ?_
      exact hen.not_disabled ⟨file, d, hd, hr.2⟩
    rw [if_neg hr]
    have hall := hbelow k name _ d.dependencies left rfl hl (next_eq hd)
      (hi.enter hl hn (Nat.not_lt.mp hc) hd)
    cases hres : visitAll (visit read index ceiling left false) d.dependencies
        ⟨insert name w.visiting, { w.closure with
          disabled :=
            if d.enabled then w.closure.disabled else insert name w.closure.disabled }⟩ with
    | error e =>
      rw [hres] at hall
      exact hall
    | ok w' =>
      rw [hres] at hall
      refine ⟨hi.leave hl hv hd hall.1, fun r v hf => ?_⟩
      cases r with
      | nil =>
        rw [append_nil] at hf ⊢
        rw [hlen]
        refine ⟨by omega, fun h1 => ?_⟩
        have he : path = [] := length_eq_zero_iff.mp (by omega)
        rw [← hf.1.unique hl] at hd hn hl
        cases hen : d.enabled
        · rw [he, hen] at hr
          exact absurd rfl hr
        · exact ⟨file, d, hd, hen⟩
      | cons i r =>
        have hlt : i < d.dependencies.length := by
          have hb := hl.beyond hf.1 (cons_ne_nil _ _)
          rw [next_eq hd] at hb
          cases hb with
          | root h | step h _ => exact (List.getElem?_eq_some_iff.mp h).1
        rw [append_cons] at hf ⊢
        exact hall.2 i hlt r v hf

/-- Every visit, by what is left of the depth. -/
theorem visit_spec : ∀ (left : Nat) (path : List Nat), path.length + left = maxDependencyDepth + 1 →
    ∀ k name w, Leads (next read index) roots (path ++ [k]) name →
      Inv read index ceiling roots path k w → Ends read index ceiling roots path (k + 1)
        (Passes read index roots (path ++ [k])) (visit read index ceiling left path.isEmpty name w)
  | left, path, hleft, k, name, w, hl, hi => by
    refine visit_of_below (fun k name w names left' he hl hnames hi => ?_) hleft hl hi
    subst he
    have hlen : (path ++ [k]).length + left' = maxDependencyDepth + 1 := by
      rw [length_append, length_singleton]
      omega
    have hempty : (path ++ [k]).isEmpty = false := isEmpty_eq_false_iff.mpr (by simp)
    have hbelow := visitAll_spec (visit_spec left' (path ++ [k]) hlen) names 0 w
      (fun i v h => by
        rw [Nat.zero_add]
        rw [← hnames] at h
        exact hl.snoc h) hi
    rw [hempty, Nat.zero_add] at hbelow
    exact hbelow.imp fun hpass i hlt => hpass i (Nat.zero_le i) hlt
termination_by left => left

theorem inv_empty : Inv read index ceiling roots [] 0 ⟨∅, ∅, ∅⟩ := by
  constructor
  · intro v
    refine ⟨fun h => absurd h (Finset.notMem_empty v), fun h => ?_⟩
    obtain ⟨p, _, hlt⟩ := h
    cases hlt with
    | here h => exact absurd h (Nat.not_lt_zero _)
    | there h => cases h
  · intro v
    refine ⟨fun h => absurd h (Finset.notMem_empty v), fun h => ?_⟩
    obtain ⟨p, hp, hv⟩ := h
    exact absurd (prefix_nil.mp hp) hv.ne_nil
  · exact fun v hv => absurd hv (Finset.notMem_empty v)
  · intro v
    simp
  · exact Nat.zero_le _
  · intro v hv
    simp at hv
  · exact fun v hv => absurd hv (Finset.notMem_empty v)

variable (read index ceiling roots) in
/-- The whole loop over the roots. -/
theorem roots_spec : Ends read index ceiling roots [] roots.length
    (∀ i, i < roots.length → Passes read index roots [i])
    (visitAll (visit read index ceiling (maxDependencyDepth + 1) true) roots ⟨∅, ∅, ∅⟩) := by
  have hvisit : ∀ k name w, Leads (next read index) roots ([] ++ [k]) name →
      Inv read index ceiling roots [] k w → Ends read index ceiling roots [] (k + 1)
        (Passes read index roots ([] ++ [k]))
        (visit read index ceiling (maxDependencyDepth + 1) true name w) :=
    visit_spec _ [] (Nat.zero_add _)
  have h := visitAll_spec hvisit roots 0 ⟨∅, ∅, ∅⟩
    (fun i v h => .root (by rwa [Nat.zero_add])) inv_empty
  rw [Nat.zero_add] at h
  exact h.imp fun hpass i hlt => hpass i (Nat.zero_le i) hlt

theorem walk_error {e : Refusal P} (h : walk read index ceiling roots = .error e) :
    ¬ Admitted read index ceiling roots := by
  have hspec := roots_spec read index ceiling roots
  unfold walk at h
  cases hres : visitAll (visit read index ceiling (maxDependencyDepth + 1) true) roots
      ⟨∅, ∅, ∅⟩ with
  | error _ =>
    rw [hres] at hspec
    exact hspec
  | ok _ =>
    rw [hres] at h
    cases h

/-- A walk that ends well has planned what the roots reach, and noted what of it is disabled. -/
theorem walk_ok {c : Closure} (h : walk read index ceiling roots = .ok c) :
    Admitted read index ceiling roots ∧
      (∀ v, v ∈ c.planned ↔ Reaches (next read index) roots v) ∧
      ∀ v, v ∈ c.disabled ↔ Reaches (next read index) roots v ∧ Disabled read index v := by
  have hspec := roots_spec read index ceiling roots
  unfold walk at h
  cases hres : visitAll (visit read index ceiling (maxDependencyDepth + 1) true) roots
      ⟨∅, ∅, ∅⟩ with
  | error _ =>
    rw [hres] at h
    cases h
  | ok w =>
    rw [hres] at h hspec
    cases h
    obtain ⟨hi, hpass⟩ := hspec
    have hnone : ∀ v, v ∉ w.visiting := by
      intro v hv
      obtain ⟨p, hp, hl⟩ := (hi.visiting v).mp hv
      exact hl.ne_nil (prefix_nil.mp hp)
    have hplanned : ∀ v, v ∈ w.closure.planned ↔ Reaches (next read index) roots v := by
      intro v
      rw [hi.planned v, reaches_iff_leads]
      exact exists_congr fun p => and_iff_left_of_imp fun hp => hp.earlier_length
    have hset : {v | Reaches (next read index) roots v} = (w.closure.planned : Set Text) :=
      Set.ext fun v => (hplanned v).symm
    -- a first path starts at a root, and what was looked at below that root was in order
    have hseen : ∀ path v, First (next read index) roots path v →
        path.length ≤ maxDependencyDepth + 1 ∧ (path.length = 1 → Enabled read index v) := by
      intro path v hf
      cases path with
      | nil => exact absurd rfl hf.1.ne_nil
      | cons i r =>
        have hlt : i < roots.length := by
          cases hf.1 with
          | root h | step h _ => exact (List.getElem?_eq_some_iff.mp h).1
        exact hpass i hlt r v hf
    refine ⟨⟨⟨?_, ?_, ?_⟩, ?_, ?_⟩, hplanned, ?_⟩
    · exact fun v hv => hi.described v (.inl ((hplanned v).mpr hv))
    · exact fun v hv => hi.acyclic v ((hplanned v).mpr hv)
    · rw [hset, Set.encard_coe_eq_coe_finsetCard]
      exact Nat.cast_le.mpr (Nat.le_of_add_left_le hi.fits)
    · intro i r hr hfresh
      have hf : First (next read index) roots [i] r :=
        not_not.mp fun h => hfresh ((not_first_root_iff hr).mp h)
      exact (hseen [i] r hf).2 rfl
    · exact fun path v hf => (hseen path v hf).1
    · intro v
      rw [hi.disabled v, or_iff_left (hnone v), hplanned v]

/-- The walk ends well exactly if what it sees is in order. -/
theorem walk_iff :
    (∃ c, walk read index ceiling roots = .ok c) ↔ Admitted read index ceiling roots := by
  constructor
  · intro h
    obtain ⟨c, h⟩ := h
    exact (walk_ok h).1
  · intro h
    cases hw : walk read index ceiling roots with
    | error e => exact absurd h (walk_error hw)
    | ok c => exact ⟨c, rfl⟩

/-! ## 4. Orders of the roots -/

variable {roots' : List Text}

theorem Sound.perm (hp : roots'.Perm roots) (h : Sound read index ceiling roots) :
    Sound read index ceiling roots' := by
  have hr : ∀ v, Reaches (next read index) roots' v ↔ Reaches (next read index) roots v :=
    fun v => reaches_perm hp
  refine ⟨fun v hv => h.described v ((hr v).mp hv), fun v hv => h.acyclic v ((hr v).mp hv), ?_⟩
  have hset : {v | Reaches (next read index) roots' v} = {v | Reaches (next read index) roots v} :=
    Set.ext hr
  rw [hset]
  exact h.fits

theorem Admissible.perm (hp : roots'.Perm roots)
    (h : Admissible read index ceiling roots) : Admissible read index ceiling roots' :=
  ⟨h.toSound.perm hp, fun r hr => h.enabled r (hp.mem_iff.mp hr),
    fun r hr => h.short r (hp.mem_iff.mp hr)⟩

/-- What should be admitted is. -/
theorem Admissible.admitted (h : Admissible read index ceiling roots) :
    Admitted read index ceiling roots := by
  refine ⟨h.toSound, fun i r hr _ => h.enabled r (mem_of_getElem? hr), fun path v hf => ?_⟩
  obtain ⟨n, hn, r, hr, hs⟩ := hf.1.steps
  have := h.short r hr n v hs
  omega

/-- What is admitted should be, or hides something. -/
theorem Admitted.admissible (h : Admitted read index ceiling roots)
    (hno : ¬ Hides read index ceiling roots) : Admissible read index ceiling roots := by
  refine ⟨h.toSound, fun r hr => ?_, fun r hr n v hs => ?_⟩
  · refine (described_iff.mp (h.described r (reaches_of_mem hr))).resolve_right fun hd => ?_
    exact hno ⟨h, .inl ⟨r, hr, hd⟩⟩
  · refine Nat.not_lt.mp fun hlt => ?_
    exact hno ⟨h, .inr ⟨r, hr, n, v, hs, hlt⟩⟩

theorem Hides.not_admissible (h : Hides read index ceiling roots) :
    ¬ Admissible read index ceiling roots := by
  intro ha
  rcases h.2 with ⟨r, hr, hd⟩ | ⟨r, hr, n, v, hs, hlt⟩
  · exact (ha.enabled r hr).not_disabled hd
  · exact absurd (ha.short r hr n v hs) (Nat.not_le.mpr hlt)

/-- In one order of the roots. -/
theorem exact_walk_iff (hp : roots'.Perm roots) :
    Exact read index ceiling roots (walk read index ceiling roots') ↔
      ¬ Hides read index ceiling roots' := by
  constructor
  · intro he hh
    exact hh.not_admissible ((he.admits.mp (walk_iff.mpr hh.1)).perm hp)
  · intro hno
    refine ⟨⟨fun h => ?_, fun h => ?_⟩, fun c hc v => ?_, fun c hc v => ?_⟩
    · exact ((walk_iff.mp h).admissible hno).perm hp.symm
    · exact walk_iff.mpr (h.perm hp).admitted
    · rw [(walk_ok hc).2.1 v]
      exact reaches_perm hp
    · rw [(walk_ok hc).2.2 v]
      exact and_congr_left fun _ => reaches_perm hp

/-- In every order of the roots. -/
theorem exact_walks_iff :
    (∀ roots', roots'.Perm roots →
        Exact read index ceiling roots (walk read index ceiling roots')) ↔
      ¬ ∃ roots', roots'.Perm roots ∧ Hides read index ceiling roots' := by
  rw [not_exists]
  refine forall_congr' fun roots' => ?_
  rw [not_and]
  exact forall_congr' exact_walk_iff

end spec

theorem residentClosure_explicit (parse : P → Except Text Descriptor) (index : DescriptorIndex P)
    {explicit : List Text} (h : explicit ≠ []) :
    residentClosure parse index explicit = walk parse index maxScanLoadedModels explicit := by
  unfold residentClosure
  rw [if_neg (by rwa [List.isEmpty_iff])]

/-- Both walks are exact, in whatever order the roots are named, unless some order of them hides a
    disabled root behind a root that reaches it, or a chain of more than 32 edges behind a shorter
    one. -/
theorem closure_exact_iff (emptyName : P → Text) (parse : P → Except Text Descriptor)
    (index : DescriptorIndex P) (roots : List Text) (ceiling : Nat) :
    ((∀ roots', roots'.Perm roots →
        Exact (readDescriptor emptyName parse) index ceiling roots
          (closureOf emptyName parse index roots' ceiling)) ↔
      ¬ ∃ roots', roots'.Perm roots ∧ Hides (readDescriptor emptyName parse) index ceiling roots') ∧
    (roots ≠ [] →
      ((∀ roots', roots'.Perm roots →
          Exact parse index maxScanLoadedModels roots (residentClosure parse index roots')) ↔
        ¬ ∃ roots', roots'.Perm roots ∧ Hides parse index maxScanLoadedModels roots')) := by
  refine ⟨exact_walks_iff, fun hne => ?_⟩
  rw [← exact_walks_iff]
  refine forall_congr' fun roots' => forall_congr' fun hp => ?_
  have hsome : roots' ≠ [] := by
    intro e
    rw [e] at hp
    exact hne hp.symm.eq_nil
  rw [residentClosure_explicit parse index hsome]

/-- A model that needs a disabled one. -/
def pairFiles : Nat → Except Text Descriptor
  | 0 => .ok ⟨['a'], true, [['b']]⟩
  | _ => .ok ⟨['b'], false, []⟩

def pairIndex : DescriptorIndex Nat where
  entries := [(['a'], [0]), (['b'], [1])]
  sorted := by decide

/-- The models of a chain are one letter each. -/
def link (i : Nat) : Text := [Char.ofNat ('A'.toNat + i)]

/-- 34 models, each needing the next. -/
def chainFiles (i : Nat) : Except Text Descriptor :=
  .ok ⟨link i, true, if i < 33 then [link (i + 1)] else []⟩

def chainIndex : DescriptorIndex Nat where
  entries := (List.range 34).map fun i => (link i, [i])
  sorted := by decide +kernel

/-- Named after the model that needs it, a disabled root is admitted, named before it it is refused;
    and a chain of 33 edges is admitted if its second model is named first. -/
theorem hidden :
    closureOf (fun _ => []) pairFiles pairIndex [['a'], ['b']] 16 = .ok ⟨{['a'], ['b']}, {['b']}⟩ ∧
    closureOf (fun _ => []) pairFiles pairIndex [['b'], ['a']] 16 = .error (.disabled 1 ['b']) ∧
    residentClosure pairFiles pairIndex [['a'], ['b']] = .ok ⟨{['a'], ['b']}, {['b']}⟩ ∧
    residentClosure pairFiles pairIndex [['b'], ['a']] = .error (.disabled 1 ['b']) ∧
    (closureOf (fun _ => []) chainFiles chainIndex [link 1, link 0] 64).toOption.isSome = true ∧
    closureOf (fun _ => []) chainFiles chainIndex [link 0, link 1] 64 =
    .error (.depth (link 33)) := by
  refine ⟨?_, ?_, ?_, ?_, ?_, ?_⟩ <;> decide +kernel

end Postvec.Engine.Admission
