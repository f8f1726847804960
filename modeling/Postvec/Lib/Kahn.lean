import Mathlib.Algebra.GroupWithZero.Nat
import Mathlib.Algebra.Order.BigOperators.Group.List
import Mathlib.Algebra.Order.Group.Nat
import Mathlib.Data.Finset.Card
import Mathlib.Data.List.Nodup
import Mathlib.Data.List.Perm.Subperm
import Mathlib.Logic.Relation
import Mathlib.Tactic.TypeStar

/-!
# Kahn's algorithm

A list of nodes, each with the list of what it requires. `visit` takes a node whose requirements
have all been taken from a stack, lowers the counters of the nodes that require it, and puts those
whose counter has become zero on the stack; it counts the nodes it takes.

* `visit_spec`: at the end, the nodes taken are those all of whose requirements were taken;
* `visit_all_iff`: all nodes are taken exactly if the nodes can be ranked above what they require;
* `ranked_iff`: that is, if none requires itself, directly or through others.
-/

namespace Machine.Kahn

open List

variable {α : Type*} [DecidableEq α]

/-! ## 1. The algorithm -/

/-- Lowers the counter of every node that requires `name`. A counter at zero cannot be lowered. -/
def release (name : α) : List (α × List α) → (α → Nat) → List α → Option ((α → Nat) × List α)
  | [], degree, stack => some (degree, stack)
  | (m, reqs) :: ms, degree, stack =>
    if name ∈ reqs then
      match degree m with
      | 0 => none
      | d + 1 => release name ms (Function.update degree m d) (if d = 0 then m :: stack else stack)
    else release name ms degree stack

/-- What is left to do: the stack, and the counters. -/
def left (ms : List (α × List α)) (degree : α → Nat) (stack : List α) : Nat :=
  stack.length + (ms.map fun m => degree m.1).sum

variable {degree : α → Nat} {m : α} {d : Nat} {ms : List (α × List α)}

theorem sum_update_lt (hd : degree m = d + 1) (hm : m ∈ ms.map Prod.fst) :
    (ms.map fun n => Function.update degree m d n.1).sum < (ms.map fun n => degree n.1).sum := by
  obtain ⟨n, hn, rfl⟩ := mem_map.mp hm
  refine sum_lt_sum _ _ (fun i _ => ?_) ⟨n, hn, ?_⟩
  · by_cases e : i.1 = n.1
    · rw [e, Function.update_self, hd]
      exact Nat.le_succ d
    · rw [Function.update_of_ne e]
  · rw [Function.update_self, hd]
    exact Nat.lt_succ_self d

variable {name : α} {done stack : List α}

/-- Taking a node off the stack leaves less to do. -/
theorem left_release : ∀ {ns : List (α × List α)}
    {degree degree' : α → Nat} {stack stack' : List α}, (∀ n ∈ ns, n ∈ ms) →
    release name ns degree stack = some (degree', stack') →
    left ms degree' stack' ≤ left ms degree stack
  | [], degree, degree', stack, stack', _, h => by
    cases h
    exact Nat.le_refl _
  | (m, reqs) :: ns, degree, degree', stack, stack', hin, h => by
    have htail : ∀ n ∈ ns, n ∈ ms := fun n hn => hin n (mem_cons_of_mem _ hn)
    unfold release at h
    split at h
    · split at h
      · cases h
      · rename_i d hd
        refine Nat.le_trans (left_release htail h) ?_
        have hm : m ∈ ms.map Prod.fst :=
          mem_map_of_mem (hin _ mem_cons_self)
        have := sum_update_lt hd hm
        unfold left
        split
        · simp only [length_cons]
          omega
        · omega
    · exact left_release htail h

/-- The loop: how many nodes are taken. -/
def visit (ms : List (α × List α)) (degree : α → Nat) : List α → Option Nat
  | [] => some 0
  | name :: stack =>
    match _h : release name ms degree stack with
    | none => none
    | some next => (visit ms next.1 next.2).map (· + 1)
termination_by stack => left ms degree stack
decreasing_by
  have := left_release (fun _ hn => hn) _h
  have e : left ms degree (name :: stack) = left ms degree stack + 1 := by
    simp only [left, length_cons]
    omega
  omega

/-! ## 2. One step -/

/-- A node's requirements are nodes, listed once; so are the nodes. -/
structure Closed (ms : List (α × List α)) : Prop where
  names : (ms.map Prod.fst).Nodup
  once : ∀ m ∈ ms, m.2.Nodup
  listed : ∀ m ∈ ms, ∀ r ∈ m.2, r ∈ ms.map Prod.fst

/-- Taking one node: the counters of those that require it are one lower, and those whose counter
    was one go on the stack. -/
theorem release_spec {name : α} : ∀ {ms : List (α × List α)} {degree : α → Nat} {stack : List α},
    (ms.map Prod.fst).Nodup → (∀ m ∈ ms, name ∈ m.2 → degree m.1 ≠ 0) →
    ∃ degree' new, release name ms degree stack = some (degree', new ++ stack) ∧ new.Nodup ∧
      (∀ a, a ∈ new ↔ ∃ m ∈ ms, m.1 = a ∧ name ∈ m.2 ∧ degree a = 1) ∧
      (∀ m ∈ ms, degree' m.1 = if name ∈ m.2 then degree m.1 - 1 else degree m.1) ∧
      ∀ a, a ∉ ms.map Prod.fst → degree' a = degree a
  | [], degree, stack, _, _ => ⟨degree, [], rfl, nodup_nil, by simp, by simp, fun _ _ => rfl⟩
  | (m, reqs) :: ms, degree, stack, hnd, hpos => by
    obtain ⟨hm, hnd'⟩ := nodup_cons.mp hnd
    have hne : ∀ n ∈ ms, n.1 ≠ m := fun n hn e => hm (mem_map.mpr ⟨n, hn, e⟩)
    have htail : ∀ n ∈ ms, name ∈ n.2 → degree n.1 ≠ 0 :=
      fun n hn => hpos n (mem_cons_of_mem _ hn)
    by_cases hreq : name ∈ reqs
    · obtain ⟨d, hd⟩ := Nat.exists_eq_succ_of_ne_zero (hpos (m, reqs) mem_cons_self hreq)
      have hupd : ∀ n ∈ ms, Function.update degree m d n.1 = degree n.1 :=
        fun n hn => Function.update_of_ne (hne n hn) _ _
      obtain ⟨degree', new, hrel, hnew, hmem, hdeg, hout⟩ :=
        @release_spec name ms (Function.update degree m d)
          (if d = 0 then m :: stack else stack) hnd'
          fun n hn hr => by
            rw [hupd n hn]
            exact htail n hn hr
      have hmnew : m ∉ new := by
        intro h
        obtain ⟨n, hn, e, -⟩ := (hmem m).mp h
        exact hne n hn e
      refine ⟨degree', if d = 0 then new ++ [m] else new, ?_, ?_, ?_, ?_, ?_⟩
      · rw [release, if_pos hreq, show degree m = d + 1 from hd]
        simp only [hrel]
        split <;> simp
      · split
        · rw [nodup_append]
          refine ⟨hnew, nodup_singleton m, fun a ha b hb e => hmnew ?_⟩
          rw [← mem_singleton.mp hb, ← e]
          exact ha
        · exact hnew
      · intro a
        have hrest : a ∈ new ↔ ∃ n ∈ ms, n.1 = a ∧ name ∈ n.2 ∧ degree a = 1 := by
          rw [hmem]
          refine exists_congr fun n => and_congr_right fun hn => and_congr_right fun e => ?_
          rw [← e, hupd n hn]
        have hself : (∃ n ∈ (m, reqs) :: ms, n.1 = a ∧ name ∈ n.2 ∧ degree a = 1) ↔
            (a = m ∧ d = 0) ∨ a ∈ new := by
          rw [hrest]
          refine ⟨?_, ?_⟩
          · rintro ⟨n, hn, rfl, hr, h1⟩
            rcases mem_cons.mp hn with rfl | hn
            · exact .inl ⟨rfl, by simpa [hd] using h1⟩
            · exact .inr ⟨n, hn, rfl, hr, h1⟩
          · rintro (⟨rfl, rfl⟩ | ⟨n, hn, e, hr, h1⟩)
            · exact ⟨(a, reqs), mem_cons_self, rfl, hreq, hd⟩
            · exact ⟨n, mem_cons_of_mem _ hn, e, hr, h1⟩
        rw [hself]
        split
        · rename_i h0
          simp [h0, or_comm]
        · rename_i h0
          simp [h0]
      · intro n hn
        rcases mem_cons.mp hn with rfl | hn
        · rw [hout _ hm, Function.update_self, if_pos hreq, hd]
          rfl
        · rw [hdeg n hn, hupd n hn]
      · intro a ha
        simp only [map_cons, mem_cons, not_or] at ha
        rw [hout a ha.2, Function.update_of_ne ha.1]
    · obtain ⟨degree', new, hrel, hnew, hmem, hdeg, hout⟩ :=
        @release_spec name ms degree stack hnd' htail
      refine ⟨degree', new, ?_, hnew, ?_, ?_, ?_⟩
      · rw [release, if_neg hreq, hrel]
      · intro a
        rw [hmem]
        refine ⟨fun ⟨n, hn, h⟩ => ⟨n, mem_cons_of_mem _ hn, h⟩, ?_⟩
        rintro ⟨n, hn, e, hr, h1⟩
        rcases mem_cons.mp hn with rfl | hn
        · exact absurd hr hreq
        · exact ⟨n, hn, e, hr, h1⟩
      · intro n hn
        rcases mem_cons.mp hn with rfl | hn
        · rw [hout _ hm, if_neg hreq]
        · exact hdeg n hn
      · intro a ha
        simp only [map_cons, mem_cons, not_or] at ha
        exact hout a ha.2

/-! ## 3. The loop -/

/-- The state of the loop, once the nodes `done` have been taken: the counters count what is still
    required, what is on the stack and what was taken are the nodes that require nothing more, and
    what was taken can be ranked above what it requires. -/
structure Inv (ms : List (α × List α)) (done : List α) (degree : α → Nat) (stack : List α) :
    Prop where
  nodup : (done ++ stack).Nodup
  counted : ∀ m ∈ ms, degree m.1 = (m.2.filter fun r => decide (r ∉ done)).length
  ready : ∀ a, a ∈ done ∨ a ∈ stack ↔ ∃ m ∈ ms, m.1 = a ∧ degree a = 0
  ranked : ∃ rank : α → Nat, (∀ a ∈ done, rank a < done.length) ∧
    ∀ m ∈ ms, m.1 ∈ done → ∀ r ∈ m.2, rank r < rank m.1

/-- A node without anything left to require has had all its requirements taken. -/
theorem taken_of_degree (hI : Inv ms done degree stack) {m : α × List α} (hm : m ∈ ms)
    (h0 : degree m.1 = 0) : ∀ r ∈ m.2, r ∈ done := by
  rw [hI.counted m hm, length_eq_zero_iff, filter_eq_nil_iff] at h0
  intro r hr
  simpa using h0 r hr

theorem filter_taken {l : List α} (hl : l.Nodup) (hn : name ∉ done) :
    (l.filter fun r => decide (r ∉ name :: done)).length =
      if name ∈ l then (l.filter fun r => decide (r ∉ done)).length - 1
      else (l.filter fun r => decide (r ∉ done)).length := by
  have e : (l.filter fun r => decide (r ∉ name :: done)) =
      (l.filter fun r => decide (r ∉ done)).erase name := by
    rw [(hl.filter _).erase_eq_filter, filter_filter]
    refine filter_congr fun r _ => ?_
    simp only [mem_cons, not_or, Bool.decide_and]
    by_cases h : r = name <;> simp [h]
  rw [e]
  split
  · rename_i hmem
    exact length_erase_of_mem (mem_filter.mpr ⟨hmem, by simpa using hn⟩)
  · rename_i hmem
    rw [erase_of_not_mem fun h => hmem (mem_filter.mp h).1]

/-- **One step of the loop.** -/
theorem Inv.step (hC : Closed ms) (hI : Inv ms done degree (name :: stack)) :
    ∃ degree' stack', release name ms degree stack = some (degree', stack') ∧
      Inv ms (name :: done) degree' stack' := by
  have hnd := hI.nodup
  rw [nodup_middle, nodup_cons, mem_append, not_or] at hnd
  obtain ⟨⟨hndone, hnstack⟩, hnd⟩ := hnd
  -- a node that requires `name` still waits for it
  have hpos : ∀ m ∈ ms, name ∈ m.2 → degree m.1 ≠ 0 := by
    intro m hm hr h0
    exact hndone (taken_of_degree hI hm h0 name hr)
  obtain ⟨degree', new, hrel, hnew, hmem, hdeg, -⟩ :=
    @release_spec α _ name ms degree stack hC.names hpos
  have hdegree : ∀ m ∈ ms, degree' m.1 =
      (m.2.filter fun r => decide (r ∉ name :: done)).length := by
    intro m hm
    rw [hdeg m hm, filter_taken (hC.once m hm) hndone, hI.counted m hm]
  have hready : ∀ a, a ∈ name :: done ∨ a ∈ new ++ stack ↔ ∃ m ∈ ms, m.1 = a ∧ degree' a = 0 := by
    intro a
    have hold : (a ∈ done ∨ a = name ∨ a ∈ stack) ↔ ∃ m ∈ ms, m.1 = a ∧ degree a = 0 := by
      rw [← hI.ready a, mem_cons]
    have hsplit : (∃ m ∈ ms, m.1 = a ∧ degree' a = 0) ↔
        (∃ m ∈ ms, m.1 = a ∧ degree a = 0) ∨ a ∈ new := by
      rw [hmem]
      refine ⟨?_, ?_⟩
      · rintro ⟨m, hm, rfl, h0⟩
        rw [hdeg m hm] at h0
        split at h0
        · rename_i hr
          have := hpos m hm hr
          exact .inr ⟨m, hm, rfl, hr, by omega⟩
        · exact .inl ⟨m, hm, rfl, h0⟩
      · rintro (⟨m, hm, rfl, h0⟩ | ⟨m, hm, rfl, hr, h1⟩)
        · refine ⟨m, hm, rfl, ?_⟩
          rw [hdeg m hm, h0]
          exact ite_self _
        · refine ⟨m, hm, rfl, ?_⟩
          rw [hdeg m hm, if_pos hr, h1]
    rw [hsplit, ← hold]
    simp only [mem_cons, mem_append, or_assoc, or_comm, or_left_comm]
  refine ⟨degree', new ++ stack, hrel, ⟨?_, hdegree, hready, ?_⟩⟩
  · -- what is new on the stack was not ready before
    have hapart : ∀ a ∈ new, a ∉ done ∧ a ≠ name ∧ a ∉ stack := by
      intro a ha
      obtain ⟨m, hm, e, hr, h1⟩ := (hmem a).mp ha
      have hn : ¬ (a ∈ done ∨ a ∈ name :: stack) := by
        intro h
        obtain ⟨m', hm', e', h0⟩ := (hI.ready a).mp h
        omega
      simp only [mem_cons, not_or] at hn
      exact hn
    rw [cons_append, nodup_cons]
    refine ⟨?_, ?_⟩
    · simp only [mem_append, not_or]
      exact ⟨hndone, fun h => (hapart _ h).2.1 rfl, hnstack⟩
    · rw [nodup_append] at hnd ⊢
      refine ⟨hnd.1, ?_, ?_⟩
      · rw [nodup_append]
        exact ⟨hnew, hnd.2.1, fun a ha b hb e => (hapart a ha).2.2 (e ▸ hb)⟩
      · intro a ha b hb e
        rcases mem_append.mp hb with hb | hb
        · exact (hapart b hb).1 (e ▸ ha)
        · exact hnd.2.2 a ha b hb e
  · -- `name` is ranked above everything taken before it
    obtain ⟨rank, hlt, hrank⟩ := hI.ranked
    refine ⟨Function.update rank name done.length, ?_, ?_⟩
    · intro a ha
      by_cases e : a = name
      · rw [e, Function.update_self, length_cons]
        exact Nat.lt_succ_self _
      · rw [Function.update_of_ne e, length_cons]
        exact Nat.lt_succ_of_lt (hlt a ((mem_cons.mp ha).resolve_left e))
    · intro m hm hmd r hr
      have hin : m.1 ∈ done ∨ m.1 ∈ name :: stack :=
        (mem_cons.mp hmd).symm.imp_right fun e => mem_cons.mpr (.inl e)
      obtain ⟨-, -, -, h0⟩ := (hI.ready m.1).mp hin
      have hrd : r ∈ done := taken_of_degree hI hm h0 r hr
      have hne : r ≠ name := fun e => hndone (e ▸ hrd)
      rw [Function.update_of_ne hne]
      by_cases e : m.1 = name
      · rw [e, Function.update_self]
        exact hlt r hrd
      · rw [Function.update_of_ne e]
        exact hrank m hm ((mem_cons.mp hmd).resolve_left e) r hr

/-- **The whole loop**: it ends, no counter is lowered below zero, and the nodes taken are those all
    of whose requirements were taken. -/
theorem visit_spec (hC : Closed ms) (degree : α → Nat) (stack : List α) :
    ∀ {done : List α}, Inv ms done degree stack →
    ∃ n done' degree', visit ms degree stack = some n ∧ done'.length = done.length + n ∧
      Inv ms done' degree' [] := by
  induction degree, stack using visit.induct ms with
  | case1 degree =>
    intro done hI
    exact ⟨0, done, degree, by rw [visit], rfl, hI⟩
  | case2 degree name stack hnone =>
    intro done hI
    obtain ⟨degree', stack', hrel, -⟩ := hI.step hC
    rw [hrel] at hnone
    cases hnone
  | case3 degree name stack next hrel ih =>
    intro done hI
    obtain ⟨degree', stack', hrel', hI'⟩ := hI.step hC
    rw [hrel] at hrel'
    cases hrel'
    obtain ⟨n, done', degree'', hv, hlen, hI''⟩ := ih hI'
    refine ⟨n + 1, done', degree'', ?_, ?_, hI''⟩
    · rw [visit]
      split
      · rename_i h
        rw [hrel] at h
        cases h
      · rename_i next' h
        rw [hrel] at h
        cases h
        rw [hv]
        rfl
    · rw [hlen, length_cons]
      omega

/-! ## 4. What it decides -/

/-- The nodes can be ranked above what they require. -/
def Ranked (ms : List (α × List α)) : Prop :=
  ∃ rank : α → Nat, ∀ m ∈ ms, ∀ r ∈ m.2, rank r < rank m.1

/-- With all counters set and the nodes that require nothing on the stack. -/
theorem inv_start (hdeg : ∀ m ∈ ms, degree m.1 = m.2.length) (hnd : stack.Nodup)
    (hstack : ∀ a, a ∈ stack ↔ ∃ m ∈ ms, m.1 = a ∧ degree a = 0) : Inv ms [] degree stack where
  nodup := hnd
  counted := by
    intro m hm
    rw [hdeg m hm]
    simp
  ready := by
    intro a
    rw [← hstack a]
    simp
  ranked := ⟨fun _ => 0, by simp, by simp⟩

/-- **Kahn's algorithm.** It takes all nodes exactly if they can be ranked. -/
theorem visit_all_iff (hC : Closed ms)
    (hdeg : ∀ m ∈ ms, degree m.1 = m.2.length) (hnd : stack.Nodup)
    (hstack : ∀ a, a ∈ stack ↔ ∃ m ∈ ms, m.1 = a ∧ degree a = 0) :
    ∃ n, visit ms degree stack = some n ∧ (n = ms.length ↔ Ranked ms) := by
  obtain ⟨n, done, degree', hv, hlen, hI⟩ := visit_spec hC degree stack (inv_start hdeg hnd hstack)
  simp only [length_nil, Nat.zero_add] at hlen
  have hdone : done.Nodup := by simpa using hI.nodup
  have hready : ∀ a, a ∈ done ↔ ∃ m ∈ ms, m.1 = a ∧ degree' a = 0 := by
    intro a
    rw [← hI.ready a]
    simp
  have hsub : done ⊆ ms.map Prod.fst := by
    intro a ha
    obtain ⟨m, hm, rfl, -⟩ := (hready a).mp ha
    exact mem_map_of_mem hm
  refine ⟨n, hv, ?_, ?_⟩
  · intro hn
    -- as many as there are, so all
    have hperm : done.Perm (ms.map Prod.fst) :=
      (subperm_of_subset hdone hsub).perm_of_length_le (by simp [hlen, hn])
    obtain ⟨rank, -, hrank⟩ := hI.ranked
    refine ⟨rank, fun m hm => hrank m hm ?_⟩
    exact hperm.mem_iff.mpr (mem_map_of_mem hm)
  · rintro ⟨rank, hrank⟩
    -- by induction on the rank every node is taken
    have hall : ∀ k, ∀ m ∈ ms, rank m.1 < k → m.1 ∈ done := by
      intro k
      induction k with
      | zero => exact fun m _ h => absurd h (Nat.not_lt_zero _)
      | succ k ih =>
        intro m hm hk
        refine (hready m.1).mpr ⟨m, hm, rfl, ?_⟩
        rw [hI.counted m hm, length_eq_zero_iff, filter_eq_nil_iff]
        intro r hr
        obtain ⟨m', hm', e⟩ := mem_map.mp (hC.listed m hm r hr)
        have := hrank m hm r hr
        have hr' : m'.1 ∈ done := ih m' hm' (by rw [e]; omega)
        simpa using e ▸ hr'
    have hsub' : ms.map Prod.fst ⊆ done := by
      intro a ha
      obtain ⟨m, hm, rfl⟩ := mem_map.mp ha
      exact hall _ m hm (Nat.lt_succ_self _)
    have h1 := (subperm_of_subset hdone hsub).length_le
    have h2 := (subperm_of_subset hC.names hsub').length_le
    simp only [length_map] at h1 h2
    omega

/-- The node `a` requires `b`. -/
def Requires (ms : List (α × List α)) (a b : α) : Prop := ∃ m ∈ ms, m.1 = a ∧ b ∈ m.2

/-- Nodes can be ranked exactly if there is no cycle: the rank of a node is the number of those it
    requires, directly or through others. -/
theorem ranked_iff (hC : Closed ms) : Ranked ms ↔ ∀ a, ¬ Relation.TransGen (Requires ms) a a := by
  constructor
  · intro hranked a h
    obtain ⟨rank, hrank⟩ := hranked
    have hlt : ∀ b, Relation.TransGen (Requires ms) a b → rank b < rank a := by
      intro b hb
      induction hb with
      | single h =>
        obtain ⟨m, hm, rfl, hr⟩ := h
        exact hrank m hm _ hr
      | tail _ h ih =>
        obtain ⟨m, hm, rfl, hr⟩ := h
        exact (hrank m hm _ hr).trans ih
    exact Nat.lt_irrefl _ (hlt a h)
  · intro hno
    classical
    let below (a : α) := (ms.map Prod.fst).toFinset.filter (Relation.TransGen (Requires ms) a)
    refine ⟨fun a => (below a).card, fun m hm r hr => Finset.card_lt_card
      ⟨fun b hb => ?_, fun hsub => ?_⟩⟩
    · obtain ⟨hin, hb⟩ := Finset.mem_filter.mp hb
      exact Finset.mem_filter.mpr ⟨hin, .head ⟨m, hm, rfl, hr⟩ hb⟩
    · have hr' : r ∈ below m.1 := Finset.mem_filter.mpr
        ⟨mem_toFinset.mpr (hC.listed m hm r hr), .single ⟨m, hm, rfl, hr⟩⟩
      exact hno r (Finset.mem_filter.mp (hsub hr')).2

omit [DecidableEq α] in
/-- A part of the nodes can be ranked if the whole can. -/
theorem Ranked.subset {ns : List (α × List α)} (h : Ranked ms) (hsub : ∀ n ∈ ns, n ∈ ms) :
    Ranked ns := by
  obtain ⟨rank, hrank⟩ := h
  exact ⟨rank, fun n hn => hrank n (hsub n hn)⟩

end Machine.Kahn
