import Postvec.Engine.Resolver
import Postvec.Lib.Run

/-!
# Lookups while the resolver is rebuilt

`resolve_embed` and `resolve_convert` take no lock, and a rebuild is not one step: it clears the
index of public names, then that of conversions, and enters the models one after the other.

A rebuild holds the lock of the models and only one load is behind the gate, so one rebuild runs at
a time and the models stay as they are meanwhile. A load ends with a rebuild, after its model was
taken back if it failed. The models that a load or an unload puts in or takes out are noted beside
it, for the statements.

* **`resolves_iff`**: a model that serves a key is found exactly if no rebuild has cleared the index
  and not yet entered the model again;
* `cleared_index`: a loaded model is not found while another one is loaded.
-/

namespace Postvec.Engine

open Machine List

/-! ## 1. The machine -/

/-- How far a rebuild has come. -/
inductive Stage where
  | begun
  | embedCleared
  | entering (pending : List ModelConfiguration)

/-- A load in progress: its name, and the models that entered or left under it. -/
structure Loading where
  name : Text
  moved : List ModelConfiguration

/-- A rebuild in progress, and the models that moved before it. -/
structure Rebuild where
  moved : List ModelConfiguration
  stage : Stage

/-- The engine: the map of models, the resolver's indexes, and what is in progress. -/
structure Live where
  models : List ModelConfiguration
  resolver : ModelResolver
  loading : Option Loading
  running : Option Rebuild

/-- The steps others can see: a load publishes, takes back and ends; a rebuild goes on. -/
inductive LiveAct where
  | publish (c : ModelConfiguration)
  | takeBack
  | endLoad
  | unload (name : Text)
  | rebuild

/-- The map of the models, without the entry of a name. -/
def Live.without (s : Live) (name : Text) : List ModelConfiguration :=
  s.models.filter fun m => m.name ≠ name

/-- The entry of a name, if there is one. -/
def Live.entry (s : Live) (name : Text) : List ModelConfiguration :=
  s.models.filter fun m => m.name = name

/-- The models in the order `rebuild` enters them. -/
def sorted (configs : List ModelConfiguration) : List ModelConfiguration :=
  configs.insertionSort fun a b => a.name ≤ b.name

/-- The next step of `rebuild`. -/
def Live.rebuilding (s : Live) (r : Rebuild) : Live :=
  match r.stage with
  | .begun => { s with
      resolver := { s.resolver with embedIndex := ∅ }
      running := some ⟨r.moved, .embedCleared⟩ }
  | .embedCleared => { s with
      resolver := .new
      running := some ⟨r.moved, .entering (sorted s.models)⟩ }
  | .entering (c :: rest) => { s with
      resolver := s.resolver.enter c
      running := some ⟨r.moved, .entering rest⟩ }
  | .entering [] => { s with running := none }

/-- One step; a rebuild that runs is finished before anything else. -/
def Live.step (s : Live) (a : LiveAct) : Option Live :=
  match s.running, a, s.loading with
  | some r, .rebuild, _ => some (s.rebuilding r)
  | none, .publish c, none =>
    some { s with
      models := c :: s.without c.name
      loading := some ⟨c.name, c :: s.entry c.name⟩ }
  | none, .takeBack, some l =>
    some { s with
      models := s.without l.name
      loading := some ⟨l.name, l.moved ++ s.entry l.name⟩ }
  | none, .endLoad, some l => some { s with loading := none, running := some ⟨l.moved, .begun⟩ }
  | none, .unload name, _ =>
    if s.entry name = [] then none
    else some { s with models := s.without name, running := some ⟨s.entry name, .begun⟩ }
  | _, _, _ => none

/-- `c` serves the key: it is the last by name of the models that declare it, and no model that is
    being loaded or unloaded does. -/
structure Live.Serves {κ : Type} (s : Live) (key : ModelConfiguration → Option κ) (k : κ)
    (c : ModelConfiguration) : Prop where
  loaded : c ∈ s.models
  declares : key c = some k
  last : ∀ d ∈ s.models, key d = some k → d.name ≤ c.name
  loading : ∀ l ∈ s.loading, ∀ d ∈ l.moved, key d ≠ some k
  moving : ∀ r ∈ s.running, ∀ d ∈ r.moved, key d ≠ some k

/-- The index of public names is cleared, and the model is not in it again. -/
def Stage.hidesEmbed (c : ModelConfiguration) : Stage → Bool
  | .begun => false
  | .embedCleared => true
  | .entering pending => decide (c ∈ pending)

/-- The index of conversions is cleared, and the model is not in it again. -/
def Stage.hidesConvert (c : ModelConfiguration) : Stage → Bool
  | .entering pending => decide (c ∈ pending)
  | _ => false

/-! ## 2. What the indexes show -/

/-- The models `D` are the loaded ones, but for those that move. -/
def Live.Near (s : Live) (D : ModelConfiguration → Prop) : Prop :=
  ∀ c, (∀ l ∈ s.loading, c ∉ l.moved) → (∀ r ∈ s.running, c ∉ r.moved) → (D c ↔ c ∈ s.models)

/-- What the indexes show, stage by stage of a rebuild. -/
def Live.View (s : Live) : Prop :=
  match s.running.map Rebuild.stage with
  | some (.entering pending) => ∃ done, sorted s.models = done ++ pending ∧
      s.resolver = done.foldl .enter .new
  | some .embedCleared => s.resolver.embedIndex = ∅ ∧ ∃ D, s.Near D ∧
      Describes convertKey (fun k => s.resolver.resolveConvert k.1 k.2) D
  | _ => ∃ D, s.Near D ∧ s.resolver.Describes D

/-- One entry for each name, and indexes that show what they should. -/
structure Live.Good (s : Live) : Prop where
  names : (s.models.map ModelConfiguration.name).Nodup
  view : s.View

variable {s s' : Live} {c : ModelConfiguration}

theorem Live.Good.without_names (hs : s.Good) (name : Text) :
    ((s.without name).map ModelConfiguration.name).Nodup :=
  hs.names.sublist (filter_sublist.map _)

theorem Live.mem_without {name : Text} (hc : c ∉ s.entry name) :
    c ∈ s.without name ↔ c ∈ s.models := by
  simp only [Live.entry, Live.without, mem_filter, decide_eq_true_eq] at hc ⊢
  exact and_iff_left_of_imp fun hin hname => hc ⟨hin, hname⟩

theorem Live.Good.rebuilding {r : Rebuild} (hs : s.Good) (hr : s.running = some r) :
    (s.rebuilding r).Good := by
  obtain ⟨models, resolver, loading, running⟩ := s
  obtain ⟨moved, stage⟩ := r
  cases hr
  have hview := hs.view
  cases stage with
  | begun =>
    obtain ⟨D, hD, hdesc⟩ := hview
    refine ⟨hs.names, rfl, D, fun c hl hm => hD c hl ?_, hdesc.convert⟩
    intro r hr
    cases hr
    exact hm ⟨moved, .embedCleared⟩ rfl
  | embedCleared => exact ⟨hs.names, [], rfl, rfl⟩
  | entering pending =>
    obtain ⟨done, hdone, hres⟩ := hview
    cases pending with
    | cons c rest =>
      refine ⟨hs.names, done ++ [c], ?_, ?_⟩
      · rw [append_assoc]
        exact hdone
      · rw [foldl_append, ← hres]
        rfl
    | nil =>
      have hreb : resolver = rebuild models := by
        rw [append_nil] at hdone
        rw [rebuild, ← sorted, hdone]
        exact hres
      refine ⟨hs.names, (· ∈ models), fun _ _ _ => Iff.rfl, ?_⟩
      rw [hreb]
      exact rebuild_describes models

theorem Live.Good.step {a : LiveAct} (hs : s.Good) (h : s.step a = some s') : s'.Good := by
  cases hr : s.running with
  | some r =>
    cases a with
    | rebuild =>
      simp only [Live.step, hr] at h
      cases h
      exact hs.rebuilding hr
    | _ => simp [Live.step, hr] at h
  | none =>
    obtain ⟨models, resolver, loading, running⟩ := s
    cases hr
    obtain ⟨D, hD, hdesc⟩ : ∃ D, Live.Near ⟨models, resolver, loading, none⟩ D ∧
        resolver.Describes D :=
      hs.view
    have hnone : ∀ c, ∀ r ∈ (none : Option Rebuild), c ∉ r.moved := fun c r hr => nomatch hr
    cases a with
    | rebuild => cases h
    | publish c =>
      cases loading with
      | some l => cases h
      | none =>
        cases h
        refine ⟨nodup_cons.mpr ⟨fun hc => ?_, hs.without_names _⟩, D, fun d hd _ => ?_, hdesc⟩
        · obtain ⟨d, hd, e⟩ := mem_map.mp hc
          exact of_decide_eq_true (mem_filter.mp hd).2 e
        · obtain ⟨hne, hout⟩ := not_or.mp (mt mem_cons.mpr (hd _ rfl))
          rw [mem_cons, or_iff_right hne, Live.mem_without hout]
          exact hD d (fun l hl => nomatch hl) (hnone d)
    | takeBack =>
      cases loading with
      | none => cases h
      | some l =>
        cases h
        refine ⟨hs.without_names _, D, fun d hd _ => ?_, hdesc⟩
        obtain ⟨hl, hout⟩ := not_or.mp (mt mem_append.mpr (hd _ rfl))
        rw [Live.mem_without hout]
        exact hD d (fun l' hl' => Option.some.inj hl' ▸ hl) (hnone d)
    | endLoad =>
      cases loading with
      | none => cases h
      | some l =>
        cases h
        exact ⟨hs.names, D,
          fun d _ hm => hD d (fun l' hl' => Option.some.inj hl' ▸ hm _ rfl) (hnone d), hdesc⟩
    | unload name =>
      obtain ⟨-, h⟩ := Option.ite_none_left_eq_some.mp h
      cases h
      refine ⟨hs.without_names _, D, fun d hd hm => ?_, hdesc⟩
      rw [Live.mem_without (hm _ rfl)]
      exact hD d hd (hnone d)

/-! ## 3. What a lookup finds -/

section Lookup

variable {κ : Type} {key : ModelConfiguration → Option κ} {get : κ → Option Text} {k : κ}

theorem Describes.served {D : ModelConfiguration → Prop} (h : Describes key get D) (hc : D c)
    (hk : key c = some k) (hlast : ∀ d, D d → key d = some k → d.name ≤ c.name) :
    get k = some c.name := by
  obtain ⟨n, hn⟩ := (h.declared k).mpr ⟨c, hc, hk⟩
  obtain ⟨⟨d, hd, hk', e⟩, hmax⟩ := h.last k n hn
  rw [hn, le_antisymm (e ▸ hlast d hd hk') (hmax c hc hk)]

/-- An index of before the rebuild: what declares the key does not move. -/
theorem Live.Serves.near {D : ModelConfiguration → Prop} (hc : s.Serves key k c) (hD : s.Near D)
    (h : Describes key get D) : get k = some c.name := by
  have hsame : ∀ d, key d = some k → (D d ↔ d ∈ s.models) := fun d hd =>
    hD d (fun l hl hin => hc.loading l hl d hin hd) fun r hr hin => hc.moving r hr d hin hd
  exact h.served ((hsame c hc.declares).mpr hc.loaded) hc.declares
    fun d hd hk => hc.last d ((hsame d hk).mp hd) hk

/-- An index that the models before `pending` have been entered into. -/
theorem Live.Serves.entered [DecidableEq κ] (hs : s.Good) (hc : s.Serves key k c)
    {done pending : List ModelConfiguration} (hdone : sorted s.models = done ++ pending)
    (index : ModelResolver → κ → Option Text) (hempty : ∀ k, index .new k = none)
    (henter : ∀ r c k, index (r.enter c) k = if key c = some k then some c.name else index r k) :
    index (done.foldl .enter .new) k = some c.name ↔ c ∉ pending := by
  have hperm : (done ++ pending).Perm s.models := hdone ▸ perm_insertionSort _ _
  have hpair : (done ++ pending).Pairwise fun a b => a.name ≤ b.name :=
    hdone ▸ pairwise_names s.models
  have hnodup := (hperm.map ModelConfiguration.name).nodup_iff.mpr hs.names
  have hdesc := describes_foldl index hempty henter (pairwise_append.mp hpair).1
  constructor
  · intro hget hin
    obtain ⟨⟨d, hd, -, e⟩, -⟩ := hdesc.last k _ hget
    rw [map_append, nodup_append] at hnodup
    exact hnodup.2.2 _ (mem_map_of_mem hd) _ (mem_map_of_mem hin) e
  · intro hout
    have hin := (mem_append.mp (hperm.mem_iff.mpr hc.loaded)).resolve_right hout
    exact hdesc.served hin hc.declares fun d hd hk =>
      hc.last d (hperm.mem_iff.mp (mem_append_left _ hd)) hk

end Lookup

/-- **When a loaded model is found.** In every run of loads, rollbacks and unloads, a lookup of a
    key that a model serves finds it exactly if no rebuild has cleared the index and not entered it
    again. -/
theorem resolves_iff {models : List ModelConfiguration} {resolver : ModelResolver}
    (hnames : (models.map ModelConfiguration.name).Nodup) (hres : resolver.Describes (· ∈ models))
    (h : Reach Live.step (fun _ _ => True) ⟨models, resolver, none, none⟩ s)
    (c : ModelConfiguration) :
    (∀ k, s.Serves embedKey k c → (s.resolver.resolveEmbed k = some c.name ↔
      ∀ r ∈ s.running, r.stage.hidesEmbed c = false)) ∧
    ∀ src tgt, s.Serves convertKey (src, tgt) c → (s.resolver.resolveConvert src tgt = some c.name ↔
      ∀ r ∈ s.running, r.stage.hidesConvert c = false) := by
  have hs : s.Good := h.invariant
    ⟨hnames, (· ∈ models), fun _ _ _ => Iff.rfl, hres⟩
    fun _ _ _ hs _ hstep => hs.step hstep
  have hview := hs.view
  obtain ⟨models, resolver, loading, _ | ⟨moved, _ | _ | pending⟩⟩ := s
  · obtain ⟨D, hD, hdesc⟩ := hview
    exact ⟨fun k hk => iff_of_true (hk.near hD hdesc.embed) (fun _ h => nomatch h),
      fun src tgt hk => iff_of_true (hk.near hD hdesc.convert) (fun _ h => nomatch h)⟩
  · obtain ⟨D, hD, hdesc⟩ := hview
    refine ⟨fun k hk => iff_of_true (hk.near hD hdesc.embed) fun r hr => ?_,
      fun src tgt hk => iff_of_true (hk.near hD hdesc.convert) fun r hr => ?_⟩
    · cases hr
      rfl
    · cases hr
      rfl
  · obtain ⟨hempty, D, hD, hdesc⟩ := hview
    refine ⟨fun k hk => iff_of_false ?_ fun hall => ?_,
      fun src tgt hk => iff_of_true (hk.near hD hdesc) fun r hr => ?_⟩
    · rw [ModelResolver.resolveEmbed, show resolver.embedIndex = ∅ from hempty, AList.lookup_empty]
      exact Option.some_ne_none _ ∘ Eq.symm
    · cases hall _ rfl
    · cases hr
      rfl
  · obtain ⟨done, hdone, hres⟩ := hview
    obtain rfl : resolver = done.foldl .enter .new := hres
    refine ⟨fun k hk => (hk.entered hs hdone (fun r k => r.embedIndex.lookup k)
      (fun k => AList.lookup_empty k) lookup_enter_embed).trans ?_,
      fun src tgt hk => (hk.entered hs hdone (fun r k => r.convertIndex.lookup k)
      (fun k => AList.lookup_empty k) lookup_enter_convert).trans ?_⟩
    · simp [Stage.hidesEmbed]
    · simp [Stage.hidesConvert]

/-- `a` is loaded and served, and a rebuild is at the end of the load of `b`. -/
def loadedB (resolver : ModelResolver) (stage : Stage) : Live :=
  ⟨[embedder ['b'], embedder ['a']], resolver, none, some ⟨[embedder ['b']], stage⟩⟩

theorem loadedB_reached : Reach Live.step (fun _ _ => True)
    ⟨[embedder ['a']], rebuild [embedder ['a']], none, none⟩
    (loadedB (rebuild [embedder ['a']]) .begun) :=
  .next .endLoad (.next (.publish (embedder ['b'])) .start trivial rfl) trivial rfl

theorem loadedB_serves (resolver : ModelResolver) (stage : Stage) :
    (loadedB resolver stage).Serves embedKey ['a'] (embedder ['a']) := by
  refine ⟨by simp [loadedB], rfl, ?_, fun _ h => (nomatch h), fun r hr => ?_⟩
  · show ∀ d ∈ [embedder ['b'], embedder ['a']], embedKey d = some ['a'] → d.name ≤ ['a']
    decide
  · cases hr
    show ∀ d ∈ [embedder ['b']], embedKey d ≠ some ['a']
    decide

/-- The loaded model is not found once the index is cleared. -/
theorem cleared_index : ∃ s, Reach Live.step (fun _ _ => True)
      ⟨[embedder ['a']], rebuild [embedder ['a']], none, none⟩ s ∧
    s.Serves embedKey ['a'] (embedder ['a']) ∧ s.resolver.resolveEmbed ['a'] = none :=
  ⟨_, .next .rebuild loadedB_reached trivial rfl, loadedB_serves _ .embedCleared, rfl⟩

/-- Before the index is cleared it is found. -/
theorem resolves_loadedB :
    (loadedB (rebuild [embedder ['a']]) .begun).resolver.resolveEmbed ['a'] = some ['a'] := by
  refine ((resolves_iff (by decide) (rebuild_describes _) loadedB_reached (embedder ['a'])).1 ['a']
    (loadedB_serves _ .begun)).mpr fun r hr => ?_
  cases hr
  rfl

end Postvec.Engine
