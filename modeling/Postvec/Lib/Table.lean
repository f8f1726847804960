import Mathlib.Data.List.Dedup
import Mathlib.Data.List.Sort
import Mathlib.Order.Defs.LinearOrder

/-!
# Finite tables

A table is a finite partial function from keys to values, with a list of keys that covers its
domain. Everything about a table is said through `get`; the list is there so that the questions a
machine has to decide (`any`) can be computed.

* `put`, `erase`, `adjust`: one key changes; `map`, `mapWith`: every value does;
* `overlay`: the table with another table of changes put over it, where a change is again partial
  (it may take the key out);
* `keys`: the keys in ascending order, as a cursor over the table meets them.
-/

namespace Machine

/-- A finite partial function. -/
structure Table (K V : Type*) where
  get : K → Option V
  dom : List K
  complete : ∀ k v, get k = some v → k ∈ dom

namespace Table

variable {K V W : Type*}

/-- No keys. -/
def empty : Table K V := ⟨fun _ => none, [], fun _ _ h => by cases h⟩

@[simp] theorem get_empty (k : K) : (empty : Table K V).get k = none := rfl

/-! ## 1. Changes put over a table -/

/-- The table with the changes `c` put over it: `f w` says what the change `w` does to a key. -/
def overlay (t : Table K V) (c : Table K W) (f : W → Option V → Option V) : Table K V where
  get := fun k => match c.get k with
    | none => t.get k
    | some w => f w (t.get k)
  dom := t.dom ++ c.dom
  complete := by
    intro k v h
    split at h
    · exact List.mem_append_left _ (t.complete k v h)
    · rename_i w hw
      exact List.mem_append_right _ (c.complete k w hw)

variable {t : Table K V} {c : Table K W} {f : W → Option V → Option V} {k : K} {p : K → V → Bool}

theorem get_overlay_none (h : c.get k = none) : (t.overlay c f).get k = t.get k := by
  simp [overlay, h]

theorem get_overlay_some {w : W} (h : c.get k = some w) :
    (t.overlay c f).get k = f w (t.get k) := by
  simp [overlay, h]

/-- Every value changes. -/
def map (t : Table K V) (g : V → W) : Table K W where
  get := fun k => (t.get k).map g
  dom := t.dom
  complete := by
    intro k w h
    obtain ⟨v, hv, -⟩ := Option.map_eq_some_iff.mp h
    exact t.complete k v hv

/-- Every value changes, each by its key. -/
def mapWith (t : Table K V) (g : K → V → W) : Table K W where
  get := fun k => (t.get k).map (g k)
  dom := t.dom
  complete := by
    intro k w h
    obtain ⟨v, hv, -⟩ := Option.map_eq_some_iff.mp h
    exact t.complete k v hv

/-! ## 2. Questions about all entries -/

/-- Some entry satisfies `p`. -/
def any (t : Table K V) (p : K → V → Bool) : Bool :=
  t.dom.any fun k => match t.get k with
    | none => false
    | some v => p k v

theorem any_iff :
    t.any p = true ↔ ∃ k v, t.get k = some v ∧ p k v = true := by
  unfold any
  rw [List.any_eq_true]
  refine ⟨fun ⟨k, _, h⟩ => ?_, fun ⟨k, v, hv, h⟩ => ⟨k, t.complete k v hv, by rw [hv]; exact h⟩⟩
  split at h
  · cases h
  · rename_i v hv
    exact ⟨k, v, hv, h⟩

theorem any_eq_false_iff :
    t.any p = false ↔ ∀ k v, t.get k = some v → p k v = false := by
  rw [← Bool.not_eq_true, any_iff]
  simp only [not_exists, not_and, Bool.not_eq_true]

/-- A table none of whose values satisfies `true` is empty. -/
theorem get_eq_none_of_any (h : (t.any fun _ _ => true) = false) (k : K) : t.get k = none := by
  by_contra hk
  obtain ⟨v, hv⟩ := Option.ne_none_iff_exists'.mp hk
  cases any_eq_false_iff.mp h k v hv

/-! ## 3. One key changes -/

variable [DecidableEq K] {k' : K} {v : V}

/-- The value of one key is set. -/
def put (t : Table K V) (k : K) (v : V) : Table K V where
  get := fun k' => if k' = k then some v else t.get k'
  dom := k :: t.dom
  complete := by
    intro k' v' h
    split at h
    · rename_i e
      exact e ▸ List.mem_cons_self
    · exact List.mem_cons_of_mem _ (t.complete k' v' h)

/-- One key is taken out. -/
def erase (t : Table K V) (k : K) : Table K V where
  get := fun k' => if k' = k then none else t.get k'
  dom := t.dom
  complete := by
    intro k' v' h
    split at h
    · cases h
    · exact t.complete k' v' h

/-- The value of one key changes, if it has one. -/
def adjust (t : Table K V) (k : K) (f : V → V) : Table K V where
  get := fun k' => if k' = k then (t.get k').map f else t.get k'
  dom := t.dom
  complete := by
    intro k' v' h
    split at h
    · obtain ⟨v, hv, -⟩ := Option.map_eq_some_iff.mp h
      exact t.complete k' v hv
    · exact t.complete k' v' h

@[simp] theorem get_put (t : Table K V) (k k' : K) (v : V) :
    (t.put k v).get k' = if k' = k then some v else t.get k' := rfl

@[simp] theorem get_erase (t : Table K V) (k k' : K) :
    (t.erase k).get k' = if k' = k then none else t.get k' := rfl

theorem get_put_some {v' : V} (h : (t.put k v).get k' = some v') :
    (k' = k ∧ v' = v) ∨ t.get k' = some v' := by
  rw [get_put] at h
  split at h
  · rename_i e
    exact .inl ⟨e, (Option.some.inj h).symm⟩
  · exact .inr h

theorem get_erase_some (h : (t.erase k).get k' = some v) :
    k' ≠ k ∧ t.get k' = some v := by
  rw [get_erase] at h
  split at h
  · cases h
  · rename_i hne
    exact ⟨hne, h⟩

@[simp] theorem get_adjust (t : Table K V) (k k' : K) (f : V → V) :
    (t.adjust k f).get k' = if k' = k then (t.get k').map f else t.get k' := rfl

/-- The keys of the table in ascending order. -/
def keys {K V : Type*} [LinearOrder K] (t : Table K V) : List K :=
  ((t.dom.filter fun k => (t.get k).isSome).dedup).insertionSort (· ≤ ·)

end Table

end Machine
