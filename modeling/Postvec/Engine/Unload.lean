import Mathlib.Data.Fintype.EquivFin
import Mathlib.Data.Fintype.Sets
import Mathlib.Order.WellFounded
import Postvec.Engine.Admission
import Postvec.Format.Grammar
import Postvec.Lib.Paths

/-!
# The order in which a request unloads

`request_dependencies` and `reverse_dependency_order` of the server; the embedded engine has the
same two functions. Only the descriptors of the requested names are read, and a name waits only for
requested names that list it themselves.

* `order_direct`: among acyclic models no name comes after one it lists;
* `unloadOrder_exact`: hence none comes after one it depends on through requested models. A
  dependency through a model that is not requested is not seen (`hidden_dependency`).
-/

namespace Postvec.Engine.Admission

open Machine.Paths Relation List

variable {P : Type} (read : P → Except Text Descriptor) (index : DescriptorIndex P)

/-! ## 1. The code -/

/-- What the descriptor of a model lists; a missing, repeated or broken one gives nothing. -/
def listedBy (name : Text) : Option (List Text) :=
  match index.get name with
  | some [path] =>
    match read path with
    | .ok d => some d.dependencies
    | .error _ => none
  | _ => none

/-- The map that the loop over the requested names fills: what is inserted for a name depends on the
    name alone. -/
def requestDependencies (names : List Text) (name : Text) : Option (List Text) :=
  if name ∈ names then listedBy read index name else none

section order

variable (deps : Text → Option (List Text))

/-- Another remaining name lists the candidate. -/
def awaited (remaining : List Text) (candidate : Text) : Bool :=
  remaining.any fun other => other != candidate && (deps other).any fun d => d.any (· == candidate)

/-- The place of the next name: the first that nothing waits for, in a cycle the first of all. -/
def nextPlace (remaining : List Text) : Nat :=
  (remaining.findIdx? fun candidate => !awaited deps remaining candidate).getD 0

theorem nextPlace_lt (x : Text) (xs : List Text) : nextPlace deps (x :: xs) < (x :: xs).length := by
  unfold nextPlace
  cases h : (x :: xs).findIdx? fun candidate => !awaited deps (x :: xs) candidate with
  | none => exact Nat.succ_pos _
  | some i => exact (List.findIdx?_eq_some_iff_getElem.mp h).1

/-- The loop until nothing remains. -/
def order : List Text → List Text
  | [] => []
  | x :: xs =>
    have := nextPlace_lt deps x xs
    (x :: xs)[nextPlace deps (x :: xs)] :: order ((x :: xs).eraseIdx (nextPlace deps (x :: xs)))
termination_by remaining => remaining.length
decreasing_by
  rw [length_eraseIdx_of_lt this]
  exact Nat.lt_succ_self _

def reverseDependencyOrder (names : List Text) : List Text := order deps (firsts names)

end order

/-- The order in which `unload_models` takes the names. -/
def unloadOrder (names : List Text) : List Text :=
  reverseDependencyOrder (requestDependencies read index names) names

/-! ## 2. What the order keeps -/

/-- The models a descriptor lists, requested or not. -/
def dependsOn (name : Text) : List Text := (listedBy read index name).getD []

variable {deps : Text → Option (List Text)} {next : Text → List Text} {l names : List Text}
  {a b : Text}

theorem order_perm : (order deps l).Perm l := by
  fun_induction order deps l with
  | case1 => exact .nil
  | case2 x xs hlt ih => exact (ih.cons _).trans (getElem_cons_eraseIdx_perm hlt)

theorem awaited_iff (hdeps : ∀ n ∈ l, (deps n).getD [] = next n) :
    awaited deps l b = true ↔ ∃ a ∈ l, a ≠ b ∧ Edge next a b := by
  unfold awaited Edge
  rw [any_eq_true]
  refine exists_congr fun a => and_congr_right fun ha => ?_
  rw [Bool.and_eq_true, bne_iff_ne, ← hdeps a ha]
  cases deps a <;> simp

/-- Where no name depends on itself, some remaining name is awaited by none. -/
theorem exists_not_awaited (hacyclic : ∀ v, ¬ TransGen (Edge next) v v) (hne : l ≠ []) :
    ∃ b ∈ l, ∀ a ∈ l, ¬ Edge next a b := by
  let r (a b : {x // x ∈ l}) : Prop := TransGen (Edge next) a.1 b.1
  have : IsTrans _ r := ⟨fun _ _ _ h h' => h.trans h'⟩
  have : Std.Irrefl r := ⟨fun a => hacyclic a.1⟩
  obtain ⟨x, hx⟩ := exists_mem_of_ne_nil l hne
  obtain ⟨b, -, hb⟩ := (Finite.wellFounded_of_trans_of_irrefl r).has_min Set.univ ⟨⟨x, hx⟩, trivial⟩
  exact ⟨b.1, b.2, fun a ha he => hb ⟨a, ha⟩ trivial (.single he)⟩

/-- No name comes after one it lists. -/
theorem order_direct (hacyclic : ∀ v, ¬ TransGen (Edge next) v v) (hl : l.Nodup)
    (hdeps : ∀ n ∈ l, (deps n).getD [] = next n) :
    (order deps l).Pairwise fun first later => ¬ Edge next later first := by
  fun_induction order deps l with
  | case1 => exact .nil
  | case2 x xs hlt ih =>
    have hperm := getElem_cons_eraseIdx_perm hlt
    have hnodup := nodup_cons.mp (hperm.nodup_iff.mpr hl)
    have hmem : ∀ n ∈ (x :: xs).eraseIdx (nextPlace deps (x :: xs)), n ∈ x :: xs :=
      fun n hn => mem_of_mem_eraseIdx hn
    refine pairwise_cons.mpr ⟨fun a ha he => ?_, ih hnodup.2 fun n hn => hdeps n (hmem n hn)⟩
    -- the name at the place was awaited by none
    have hfree : awaited deps (x :: xs) (x :: xs)[nextPlace deps (x :: xs)] = false := by
      obtain ⟨b, hb, hno⟩ := exists_not_awaited hacyclic (cons_ne_nil x xs)
      have hb' : awaited deps (x :: xs) b ≠ true := fun h => by
        obtain ⟨a, ha, -, he⟩ := (awaited_iff hdeps).mp h
        exact hno a ha he
      cases hi : (x :: xs).findIdx? fun candidate => !awaited deps (x :: xs) candidate with
      | none => exact absurd (List.findIdx?_eq_none_iff.mp hi b hb) (by simp [hb'])
      | some i =>
        obtain ⟨_, hi', -⟩ := List.findIdx?_eq_some_iff_getElem.mp hi
        simpa [nextPlace, hi] using hi'
    have ha' := order_perm.mem_iff.mp ha
    exact mt (awaited_iff hdeps).mpr (Bool.eq_false_iff.mp hfree)
      ⟨a, hmem a ha', fun h => hnodup.1 (h ▸ ha'), he⟩

theorem before_of_edge (h : l.Pairwise fun first later => ¬ Edge next later first) (ha : a ∈ l)
    (hb : b ∈ l)
    (hab : a ≠ b) (he : Edge next a b) : l.idxOf a < l.idxOf b := by
  by_contra hle
  rcases (not_lt.mp hle).lt_or_eq with hlt | heq
  · have := pairwise_iff_getElem.mp h _ _ (idxOf_lt_length_of_mem hb)
      (idxOf_lt_length_of_mem ha) hlt
    rw [getElem_idxOf, getElem_idxOf] at this
    exact this he
  · exact hab ((idxOf_inj hb).mp heq).symm

/-- **Dependants first.** Among acyclic models the order has each requested name once, and a
    requested model comes before every other it depends on, directly or through requested models. -/
theorem unloadOrder_exact (hacyclic : ∀ v, ¬ TransGen (Edge (dependsOn read index)) v v)
    (names : List Text) :
    (unloadOrder read index names).Nodup ∧ (∀ n, n ∈ unloadOrder read index names ↔ n ∈ names) ∧
      ∀ a ∈ names, ∀ b, TransGen (fun x y => Edge (dependsOn read index) x y ∧ y ∈ names) a b →
        (unloadOrder read index names).idxOf a < (unloadOrder read index names).idxOf b := by
  have hperm : (unloadOrder read index names).Perm (firsts names) := order_perm
  have hmem : ∀ n, n ∈ unloadOrder read index names ↔ n ∈ names := fun n =>
    hperm.mem_iff.trans mem_firsts
  have hdirect := order_direct hacyclic (nodup_foldl_addRef names [] nodup_nil) fun n hn =>
    congrArg (Option.getD · []) (if_pos (mem_firsts.mp hn) : requestDependencies read index
      names n = _)
  refine ⟨hperm.nodup_iff.mpr (nodup_foldl_addRef names [] nodup_nil), hmem, fun a ha b hab => ?_⟩
  have hedge : ∀ {x y}, x ∈ names → Edge (dependsOn read index) x y ∧ y ∈ names →
      (unloadOrder read index names).idxOf x < (unloadOrder read index names).idxOf y :=
          fun hx he =>
    before_of_edge hdirect ((hmem _).mpr hx) ((hmem _).mpr he.2)
      (fun h => hacyclic _ (.single (h ▸ he.1))) he.1
  suffices h : b ∈ names ∧ (unloadOrder read index names).idxOf a <
    (unloadOrder read index names).idxOf b
    from h.2
  induction hab with
  | single he => exact ⟨he.2, hedge ha he⟩
  | tail _ he ih => exact ⟨he.2, ih.2.trans (hedge ih.1 he)⟩

/-! ## 3. A chain of three models -/

/-- `t` lists `m`, and `m` lists `b`. -/
def chain : DescriptorIndex Descriptor where
  entries := [(['b'], [⟨['b'], true, []⟩]), (['m'], [⟨['m'], true, [['b']]⟩]),
    (['t'], [⟨['t'], true, [['m']]⟩])]
  sorted := by decide

theorem chain_edge (h : Edge (dependsOn .ok chain) a b) :
    a = ['t'] ∧ b = ['m'] ∨ a = ['m'] ∧ b = ['b'] := by
  revert h
  unfold Edge dependsOn listedBy DescriptorIndex.get chain
  by_cases hb : ['b'] = a
  · simp [← hb]
  · by_cases hm : ['m'] = a
    · simp [← hm]
    · by_cases ht : ['t'] = a
      · simp [← ht]
      · simp [hb, hm, ht]

theorem chain_edges : Edge (dependsOn .ok chain) ['t'] ['m'] ∧
    Edge (dependsOn .ok chain) ['m'] ['b'] := by
  unfold Edge
  decide +kernel

theorem chain_acyclic (v : Text) : ¬ TransGen (Edge (dependsOn .ok chain)) v v := by
  have hlt : ∀ {w}, TransGen (Edge (dependsOn .ok chain)) v w → w < v := by
    intro w h
    induction h with
    | single he => rcases chain_edge he with ⟨rfl, rfl⟩ | ⟨rfl, rfl⟩ <;> decide
    | tail _ he ih =>
      rcases chain_edge he with ⟨rfl, rfl⟩ | ⟨rfl, rfl⟩ <;> exact lt_trans (by decide) ih
  exact fun h => lt_irrefl v (hlt h)

theorem chain_unloaded : (∀ v, ¬ TransGen (Edge (dependsOn .ok chain)) v v) ∧
    (unloadOrder .ok chain [['b'], ['m'], ['t']]).idxOf ['t'] <
      (unloadOrder .ok chain [['b'], ['m'], ['t']]).idxOf ['b'] :=
  ⟨chain_acyclic, (unloadOrder_exact .ok chain chain_acyclic _).2.2 _ (by decide) _
    (.tail (.single ⟨chain_edges.1, by decide⟩) ⟨chain_edges.2, by decide⟩)⟩

/-- Without `m` in the request `b` goes first, although `t` depends on it. -/
theorem hidden_dependency : (∀ v, ¬ TransGen (Edge (dependsOn .ok chain)) v v) ∧
    TransGen (Edge (dependsOn .ok chain)) ['t'] ['b'] ∧
      unloadOrder .ok chain [['b'], ['t']] = [['b'], ['t']] :=
  ⟨chain_acyclic, .tail (.single chain_edges.1) chain_edges.2, by decide +kernel⟩

end Postvec.Engine.Admission
