import Mathlib.Data.Finset.Dedup
import Mathlib.Data.List.Destutter
import Postvec.Registry.IndexSpec

/-!
# What a converter's descriptor requires

A converter needs companions, so that the spaces it joins stay writable for new text; which ones
depends on the models the index offers (`derivedPostvecRequires`). The installer checks a descriptor
without the index, against every closure the derivation can give (`postvecRequiresShapes`).

* **`postvecRequires_exact`**: these are the values of the derivation, over all sets of offered
  names, and an entry is accepted when it names the models of one of them;
* `reordered_accepted`: the names are compared as a set, not as the list that was derived.

Of the descriptor only the three fields the derivation reads are here.
-/

namespace Postvec.Registry

structure Descriptor where
  modelType : Option Text
  sourceModel : Option Text
  targetModel : Option Text
deriving DecidableEq

/-- Of equal neighbours one is kept. -/
theorem mem_destutter'_ne {α : Type*} [DecidableEq α] (x : α) :
    ∀ (l : List α) (a : α), x ∈ l.destutter' (· ≠ ·) a ↔ x ∈ a :: l
  | [], a => Iff.rfl
  | b :: l, a => by
    rw [List.destutter'_cons]
    split
    · rw [List.mem_cons, mem_destutter'_ne x l b, List.mem_cons (a := x) (b := a)]
    · rename_i hab
      rw [mem_destutter'_ne x l a, not_not.mp hab]
      simp

def embedBridge : Text := "embed-bridge".toList

/-- The product rule: the source space is embedded locally and converted, or the target is embedded
directly, or nothing is offered. -/
def Descriptor.derivedPostvecRequires (d : Descriptor) (offered : Text → Bool) : List Text :=
  if d.modelType ≠ some "convert".toList then []
  else
    match d.sourceModel.filter offered, d.targetModel.filter offered with
    | some source, _ => [source, embedBridge]
    | none, some target => [target]
    | none, none => []

/-- `Vec::dedup` is a `destutter`. -/
def Descriptor.postvecRequiresShapes (d : Descriptor) : List (List Text) :=
  List.destutter (· ≠ ·) [d.derivedPostvecRequires fun _ => true,
    d.derivedPostvecRequires fun name => some name ≠ d.sourceModel,
    d.derivedPostvecRequires fun _ => false]

/-- The error of the check: what the index advertises, and what the descriptor derives. -/
structure RequiresFault where
  advertised : List Text
  shapes : List (List Text)
deriving DecidableEq

/-- The text of the error; how the standard library prints a list is a parameter. -/
def RequiresFault.message (printed : List Text → String) (printedAll : List (List Text) → String)
    (f : RequiresFault) : String :=
  "the index advertises postvec_requires " ++ printed f.advertised ++
    " but the descriptor derives one of " ++ printedAll f.shapes ++
    "; the installed companion closure would differ from the required one"

/-- `check_postvec_requires`; the names are compared as sets. -/
def Descriptor.checkPostvecRequires (d : Descriptor) (model : IndexModel) :
    Except RequiresFault Unit :=
  if d.postvecRequiresShapes.any fun shape => shape.toFinset = model.postvecRequires.toFinset then
    .ok ()
  else .error ⟨model.postvecRequires, d.postvecRequiresShapes⟩

/-- Every derivation is one of the three: the source is offered, only the target is, or neither. -/
theorem Descriptor.derived_cases (d : Descriptor) (offered : Text → Bool) :
    d.derivedPostvecRequires offered = d.derivedPostvecRequires (fun _ => true) ∨
      d.derivedPostvecRequires offered =
        d.derivedPostvecRequires (fun name => some name ≠ d.sourceModel) ∨
      d.derivedPostvecRequires offered = d.derivedPostvecRequires (fun _ => false) := by
  obtain ⟨kind, source, target⟩ := d
  unfold Descriptor.derivedPostvecRequires
  split
  · exact .inl rfl
  · cases source with
    | none =>
      cases target with
      | none => exact .inl rfl
      | some t => cases ht : offered t <;> simp [Option.filter, ht]
    | some s =>
      cases hs : offered s with
      | true => simp [Option.filter, hs]
      | false =>
        cases target with
        | none => simp [Option.filter, hs]
        | some t =>
          -- a target that is the source is not offered either
          by_cases hst : t = s
          · simp [Option.filter, hs, hst]
          · cases ht : offered t <;> simp [Option.filter, hs, ht, hst]

theorem Descriptor.mem_shapes_iff (d : Descriptor) (shape : List Text) :
    shape ∈ d.postvecRequiresShapes ↔ ∃ offered, d.derivedPostvecRequires offered = shape := by
  rw [Descriptor.postvecRequiresShapes, List.destutter_cons', mem_destutter'_ne]
  simp only [List.mem_cons, List.not_mem_nil, or_false]
  constructor
  · intro h
    rcases h with rfl | rfl | rfl
    · exact ⟨_, rfl⟩
    · exact ⟨_, rfl⟩
    · exact ⟨_, rfl⟩
  · intro h
    obtain ⟨offered, rfl⟩ := h
    exact d.derived_cases offered

/-- **The declared shapes are exact**: they are the values the derivation takes as the offered names
range over all sets, and the check accepts an entry exactly when some of these sets derives a list
of the names the entry advertises. -/
theorem postvecRequires_exact (d : Descriptor) :
    (∀ shape, shape ∈ d.postvecRequiresShapes ↔
      ∃ offered, d.derivedPostvecRequires offered = shape) ∧
    ∀ model : IndexModel, d.checkPostvecRequires model = .ok () ↔
      ∃ offered, (d.derivedPostvecRequires offered).toFinset = model.postvecRequires.toFinset := by
  refine ⟨d.mem_shapes_iff, fun model => ?_⟩
  have hany : (d.postvecRequiresShapes.any fun shape =>
      shape.toFinset = model.postvecRequires.toFinset) = true ↔
      ∃ offered, (d.derivedPostvecRequires offered).toFinset = model.postvecRequires.toFinset := by
    simp [List.any_eq_true, d.mem_shapes_iff]
  rw [← hany, Descriptor.checkPostvecRequires]
  split <;> simp_all

/-- A converter from a space that can be embedded locally. -/
def sampleConverter : Descriptor := ⟨some "convert".toList, some "bge".toList, some "ada".toList⟩

/-- The bridge before the source: no set of offered names derives this list, and it is accepted. -/
theorem reordered_accepted :
    sampleConverter.checkPostvecRequires
        { sampleModel "x".toList [] [] with
          postvecRequires := [embedBridge, "bge".toList] } = .ok () ∧
      ∀ offered, sampleConverter.derivedPostvecRequires offered ≠ [embedBridge, "bge".toList] := by
  refine ⟨by decide, fun offered h => ?_⟩
  have hmem := (sampleConverter.mem_shapes_iff _).mpr ⟨offered, h⟩
  revert hmem
  decide

end Postvec.Registry
