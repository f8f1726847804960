import Mathlib.Data.Char
import Mathlib.Data.List.AList
import Mathlib.Data.List.Lex
import Mathlib.Data.List.Sort
import Postvec.Format.Grammar

/-!
# The engine's name resolver

`ModelResolver::rebuild` enters the loaded models in the order of their names, so that the last one
by name has each key. `Describes` says so without the order: a key has an entry exactly if a loaded
model declares it, and the entry is the alphabetically last such model. Public names and pairs of
names of conversions are declared in the same way, so this is said once, for any key.

* `rebuild_describes`: after a rebuild the indexes describe the models;
* `Describes.erase`: they still do when a model without an entry is taken away.
-/

namespace Postvec.Engine

open List

structure ModelConfiguration where
  name : Text
  enabled : Bool
  /-- the parameters the resolver looks at, if they are strings -/
  modelType : Option Text
  sourceModel : Option Text
  targetModel : Option Text
deriving DecidableEq

structure ModelResolver where
  embedIndex : AList fun _ : Text => Text
  convertIndex : AList fun _ : Text × Text => Text

def ModelResolver.new : ModelResolver := ⟨∅, ∅⟩

/-! ## 1. The rebuild -/

def ModelResolver.enterConvert (r : ModelResolver) (src tgt : Text) (c : ModelConfiguration) :
    ModelResolver :=
  { r with convertIndex := r.convertIndex.insert (src, tgt) c.name }

def ModelResolver.enterEmbed (r : ModelResolver) (tgt : Text) (c : ModelConfiguration) :
    ModelResolver :=
  { r with embedIndex := r.embedIndex.insert tgt c.name }

/-- Without a type of its own, a model with a source and a target is a conversion. -/
def ModelResolver.enterUntyped (r : ModelResolver) (c : ModelConfiguration) : ModelResolver :=
  match c.sourceModel, c.targetModel with
  | some src, some tgt => r.enterConvert src tgt c
  | none, some tgt => if c.modelType = some "embed".toList then r.enterEmbed tgt c else r
  | _, none => r

/-- The body of the loop of `rebuild`. -/
def ModelResolver.enter (r : ModelResolver) (c : ModelConfiguration) : ModelResolver :=
  if !c.enabled then r
  else if c.modelType = some "convert".toList then
    match c.sourceModel, c.targetModel with
    | some src, some tgt => r.enterConvert src tgt c
    | _, _ => r.enterUntyped c
  else if c.modelType = some "embed".toList then r.enterEmbed (c.targetModel.getD c.name) c
  else r.enterUntyped c

def rebuild (configs : List ModelConfiguration) : ModelResolver :=
  (configs.insertionSort fun a b => a.name ≤ b.name).foldl ModelResolver.enter .new

def ModelResolver.resolveEmbed (r : ModelResolver) (target : Text) : Option Text :=
  r.embedIndex.lookup target

def ModelResolver.resolveConvert (r : ModelResolver) (source target : Text) : Option Text :=
  r.convertIndex.lookup (source, target)

/-! ## 2. What a model declares -/

/-- The public name an enabled embedding model declares. -/
def embedKey (c : ModelConfiguration) : Option Text :=
  if c.enabled ∧ c.modelType = some "embed".toList then some (c.targetModel.getD c.name) else none

/-- The source and the target, if there are both. -/
def ModelConfiguration.ends (c : ModelConfiguration) : Option (Text × Text) :=
  match c.sourceModel, c.targetModel with
  | some src, some tgt => some (src, tgt)
  | _, _ => none

/-- The pair of names an enabled conversion declares. -/
def convertKey (c : ModelConfiguration) : Option (Text × Text) :=
  if c.enabled ∧ c.modelType ≠ some "embed".toList then c.ends else none

theorem embed_ne_convert : ("embed".toList : Text) ≠ "convert".toList := by decide

/-- What entering a model does to the index of public names. -/
theorem lookup_enter_embed (r : ModelResolver) (c : ModelConfiguration) (k : Text) :
    (r.enter c).embedIndex.lookup k =
      if embedKey c = some k then some c.name else r.embedIndex.lookup k := by
  have huntyped : c.modelType ≠ some "embed".toList →
      (r.enterUntyped c).embedIndex = r.embedIndex := by
    intro hm
    unfold ModelResolver.enterUntyped
    split
    · rfl
    · rw [if_neg hm]
    · rfl
  unfold ModelResolver.enter embedKey
  by_cases hen : c.enabled = true
  · simp only [hen, Bool.not_true, Bool.false_eq_true, if_false, true_and]
    by_cases hc : c.modelType = some "convert".toList
    · have hne : c.modelType ≠ some "embed".toList := by
        rw [hc]
        exact fun e => embed_ne_convert (Option.some.inj e).symm
      rw [if_pos hc, if_neg hne, if_neg (by simp)]
      split
      · rfl
      · rw [huntyped hne]
    · rw [if_neg hc]
      by_cases he : c.modelType = some "embed".toList
      · rw [if_pos he, if_pos he]
        by_cases hk : c.targetModel.getD c.name = k
        · rw [if_pos (by rw [hk]), ModelResolver.enterEmbed, hk]
          exact AList.lookup_insert _
        · rw [if_neg (fun e => hk (Option.some.inj e))]
          exact AList.lookup_insert_ne fun e => hk e.symm
      · rw [if_neg he, if_neg he, if_neg (by simp), huntyped he]
  · simp [hen]

/-- What entering a model does to the index of conversions. -/
theorem lookup_enter_convert (r : ModelResolver) (c : ModelConfiguration) (k : Text × Text) :
    (r.enter c).convertIndex.lookup k =
      if convertKey c = some k then some c.name else r.convertIndex.lookup k := by
  have hconvert : ∀ src tgt, (r.enterConvert src tgt c).convertIndex.lookup k =
      if (some (src, tgt) : Option (Text × Text)) = some k then some c.name
      else r.convertIndex.lookup k := by
    intro src tgt
    by_cases hk : (src, tgt) = k
    · rw [if_pos (by rw [hk]), ModelResolver.enterConvert, hk]
      exact AList.lookup_insert _
    · rw [if_neg (fun e => hk (Option.some.inj e))]
      exact AList.lookup_insert_ne fun e => hk e.symm
  have huntyped : c.modelType ≠ some "embed".toList →
      (r.enterUntyped c).convertIndex.lookup k =
        if c.ends = some k then some c.name else r.convertIndex.lookup k := by
    intro hm
    unfold ModelResolver.enterUntyped ModelConfiguration.ends
    cases c.sourceModel with
    | none =>
      cases c.targetModel with
      | none => simp
      | some tgt =>
        simp only [if_neg hm]
        rfl
    | some src =>
      cases c.targetModel with
      | none => simp
      | some tgt => exact hconvert src tgt
  unfold ModelResolver.enter convertKey
  by_cases hen : c.enabled = true
  · simp only [hen, Bool.not_true, Bool.false_eq_true, if_false, true_and]
    by_cases hc : c.modelType = some "convert".toList
    · have hne : c.modelType ≠ some "embed".toList := by
        rw [hc]
        exact fun e => embed_ne_convert (Option.some.inj e).symm
      rw [if_pos hc, if_pos hne, ← huntyped hne]
      unfold ModelResolver.enterUntyped
      cases c.sourceModel with
      | none => rfl
      | some src => cases c.targetModel <;> rfl
    · rw [if_neg hc]
      by_cases he : c.modelType = some "embed".toList
      · rw [if_pos he, if_neg (by simp [he])]
        simp [ModelResolver.enterEmbed]
      · rw [if_neg he, if_pos he, huntyped he]
  · simp [hen]

/-! ## 3. The last one by name -/

/-- `get` describes the models `loaded`: a key has an entry exactly if one of them declares it, and
    the entry is the last of these by name. -/
structure Describes {κ : Type} (key : ModelConfiguration → Option κ) (get : κ → Option Text)
    (loaded : ModelConfiguration → Prop) : Prop where
  declared : ∀ k, (∃ n, get k = some n) ↔ ∃ c, loaded c ∧ key c = some k
  last : ∀ k n, get k = some n →
    (∃ c, loaded c ∧ key c = some k ∧ c.name = n) ∧ ∀ c, loaded c → key c = some k → c.name ≤ n

section Index

variable {κ : Type} {key : ModelConfiguration → Option κ} {get : κ → Option Text}
  {loaded loaded' : ModelConfiguration → Prop}

theorem Describes.congr (h : Describes key get loaded) (hl : ∀ c, loaded' c ↔ loaded c) :
    Describes key get loaded' where
  declared := fun k => by simp only [hl, h.declared k]
  last := fun k n hn => by
    simp only [hl]
    exact h.last k n hn

/-- A model that has no entry may go. -/
theorem Describes.erase {name : Text} (h : Describes key get loaded)
    (hroute : ∀ k, get k ≠ some name) :
    Describes key get fun c => loaded c ∧ c.name ≠ name where
  declared := by
    intro k
    rw [h.declared k]
    constructor
    · rintro ⟨c, hc, hk⟩
      obtain ⟨n, hn⟩ := (h.declared k).mpr ⟨c, hc, hk⟩
      obtain ⟨⟨c', hc', hk', e⟩, -⟩ := h.last k n hn
      exact ⟨c', ⟨hc', fun e' => hroute k (hn.trans (by rw [← e, e']))⟩, hk'⟩
    · rintro ⟨c, ⟨hc, -⟩, hk⟩
      exact ⟨c, hc, hk⟩
  last := by
    intro k n hn
    obtain ⟨⟨c, hc, hk, e⟩, hmax⟩ := h.last k n hn
    refine ⟨⟨c, ⟨hc, fun e' => hroute k (hn.trans (by rw [← e, e']))⟩, hk, e⟩, ?_⟩
    exact fun c' hc' hk' => hmax c' hc'.1 hk'

/-- Entering models one after the other, in the order of their names. -/
theorem describes_foldl {r₀ : ModelResolver} (index : ModelResolver → κ → Option Text)
    [DecidableEq κ] (hempty : ∀ k, index r₀ k = none)
    (henter : ∀ r c k, index (r.enter c) k = if key c = some k then some c.name else index r k)
    {configs : List ModelConfiguration} (hs : configs.Pairwise fun a b => a.name ≤ b.name) :
    Describes key (index (configs.foldl ModelResolver.enter r₀)) (· ∈ configs) := by
  induction configs using List.reverseRecOn with
  | nil =>
    refine ⟨fun k => ?_, fun k n h => ?_⟩
    · simp [hempty]
    · rw [foldl_nil, hempty] at h
      cases h
  | append_singleton configs c ih =>
    obtain ⟨hs, -, hlast⟩ := pairwise_append.mp hs
    have ih := ih hs
    have hc : ∀ c' ∈ configs, c'.name ≤ c.name := fun c' h => hlast c' h c (mem_singleton_self c)
    rw [foldl_append]
    simp only [foldl_cons, foldl_nil]
    refine ⟨fun k => ?_, fun k n h => ?_⟩
    · rw [henter]
      by_cases hk : key c = some k
      · rw [if_pos hk]
        exact ⟨fun _ => ⟨c, by simp, hk⟩, fun _ => ⟨_, rfl⟩⟩
      · rw [if_neg hk, ih.declared k]
        constructor
        · rintro ⟨c', h, hk'⟩
          exact ⟨c', mem_append_left _ h, hk'⟩
        · rintro ⟨c', h, hk'⟩
          rcases mem_append.mp h with h | h
          · exact ⟨c', h, hk'⟩
          · exact absurd (mem_singleton.mp h ▸ hk') hk
    · rw [henter] at h
      by_cases hk : key c = some k
      · rw [if_pos hk] at h
        cases h
        refine ⟨⟨c, by simp, hk, rfl⟩, fun c' h _ => ?_⟩
        rcases mem_append.mp h with h | h
        · exact hc c' h
        · rw [mem_singleton.mp h]
      · rw [if_neg hk] at h
        obtain ⟨⟨c', hc', hk', e⟩, hmax⟩ := ih.last k n h
        refine ⟨⟨c', mem_append_left _ hc', hk', e⟩, fun c'' h'' hk'' => ?_⟩
        rcases mem_append.mp h'' with h'' | h''
        · exact hmax c'' h'' hk''
        · exact absurd (mem_singleton.mp h'' ▸ hk'') hk

end Index

/-- The resolver describes the models `loaded`. -/
structure ModelResolver.Describes (r : ModelResolver) (loaded : ModelConfiguration → Prop) :
    Prop where
  embed : Engine.Describes embedKey r.resolveEmbed loaded
  convert : Engine.Describes convertKey (fun k => r.resolveConvert k.1 k.2) loaded

theorem pairwise_names (configs : List ModelConfiguration) :
    (configs.insertionSort fun a b => a.name ≤ b.name).Pairwise fun a b => a.name ≤ b.name :=
  pairwise_insertionSort (Order.Preimage ModelConfiguration.name (· ≤ ·)) configs

/-- **A rebuild describes the models it was given.** -/
theorem rebuild_describes (configs : List ModelConfiguration) :
    (rebuild configs).Describes (· ∈ configs) := by
  have hs := pairwise_names configs
  have hmem : ∀ c, c ∈ configs ↔ c ∈ configs.insertionSort fun a b => a.name ≤ b.name :=
    fun c => (perm_insertionSort _ configs).mem_iff.symm
  exact {
    embed := (describes_foldl (fun r k => r.embedIndex.lookup k)
      (fun k => AList.lookup_empty k) lookup_enter_embed hs).congr hmem
    convert := (describes_foldl (fun r k => r.convertIndex.lookup k)
      (fun k => AList.lookup_empty k) lookup_enter_convert hs).congr hmem }

/-- Some entry leads to the model. -/
def ModelResolver.routes (r : ModelResolver) (name : Text) : Bool :=
  (r.embedIndex.entries.any fun e => e.2 == name) || r.convertIndex.entries.any fun e => e.2 == name

theorem AList.lookup_ne_of_any {κ : Type} [DecidableEq κ] {m : AList fun _ : κ => Text}
    {name : Text}
    (h : (m.entries.any fun e => e.2 == name) = false) (k : κ) : m.lookup k ≠ some name := by
  intro hk
  have hmem : (⟨k, name⟩ : Sigma fun _ : κ => Text) ∈ m.entries := AList.mem_lookup_iff.mp hk
  have := any_eq_false.mp h _ hmem
  exact this (beq_self_eq_true name)

/-- A model no entry leads to may go. -/
theorem ModelResolver.Describes.erase {r : ModelResolver} {loaded : ModelConfiguration → Prop}
    {name : Text} (h : r.Describes loaded) (hr : r.routes name = false) :
    r.Describes fun c => loaded c ∧ c.name ≠ name := by
  obtain ⟨he, hc⟩ := Bool.or_eq_false_iff.mp hr
  exact {
    embed := h.embed.erase fun k => AList.lookup_ne_of_any he k
    convert := h.convert.erase fun k => AList.lookup_ne_of_any hc k }

theorem ModelResolver.Describes.congr {r : ModelResolver}
    {loaded loaded' : ModelConfiguration → Prop}
    (h : r.Describes loaded) (hl : ∀ c, loaded' c ↔ loaded c) : r.Describes loaded' :=
  ⟨h.embed.congr hl, h.convert.congr hl⟩

/-- An embedding model under its own name. -/
def embedder (name : Text) : ModelConfiguration := ⟨name, true, some "embed".toList, none, none⟩

end Postvec.Engine
