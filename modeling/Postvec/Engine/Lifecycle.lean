import Postvec.Engine.Resolver
import Postvec.Lib.Run

/-!
# The engine's models: startup, loads and unloads

The three maps of the engine (models, executors, paths) and its resolver, under

* the startup, which publishes what it could instantiate and then builds the executors one after
  the other. What it does between two awaits is one step;
* `load_model`: what it does before it holds the commit gate changes nothing. Behind the gate every
  access to a map is a step of its own, and where the source awaits the load may also fail or be
  dropped; the guard then takes everything back (`ModelLoadRollback`);
* `unload_model`, which holds all three maps.

Unloads may come between any two steps of a load, loads and unloads between any two builds of the
startup (a build loads the dependencies of its model).

* **`settled_consistent`**: in every run whose startups meet `careful`, whenever no load holds the
  gate the maps have the same keys and the resolver describes the models;
* `dropped_route`: a model whose executor fails to build leaves its route behind.
-/

open AList

namespace Postvec.Engine

open Machine List

/-! ## 1. The state -/

inductive Startup where
  | before
  /-- `load_models_and_executors`: the executors still to be created -/
  | creating (pending : List ModelConfiguration)
  /-- `build_executors`, between two builds -/
  | building (names : List Text)
  /-- the build of an executor is awaited -/
  | awaiting (name : Text) (rest : List Text)
  | past
deriving DecidableEq

/-- How far the load that holds the gate has come. -/
inductive LoadPhase where
  | acquired
  | pathIn
  | published
  | executorIn
  | checked
  | failed
  | modelOut
  | executorOut
  | pathOut
deriving DecidableEq, Repr

structure Load where
  config : ModelConfiguration
  dir : Text
  phase : LoadPhase
deriving DecidableEq

structure Sys where
  models : AList fun _ : Text => ModelConfiguration
  executors : AList fun _ : Text => Unit
  modelPaths : AList fun _ : Text => Text
  resolver : ModelResolver
  startup : Startup
  gate : Option Load

/-- `InferenceEngine::new` -/
def Sys.new : Sys := ⟨∅, ∅, ∅, .new, .before, none⟩

/-- The configurations of the loaded models. -/
def Sys.configs (s : Sys) : List ModelConfiguration := s.models.entries.map fun e => e.2

/-- Pool and executor are both registered. -/
def Sys.ready (s : Sys) (name : Text) : Bool :=
  (s.models.lookup name).isSome && (s.executors.lookup name).isSome

def Sys.rebuilt (s : Sys) : Sys := { s with resolver := rebuild s.configs }

/-- The model is taken out of all three maps. -/
def Sys.dropped (s : Sys) (name : Text) : Sys :=
  { s with
    models := s.models.erase name
    executors := s.executors.erase name
    modelPaths := s.modelPaths.erase name }

/-! ## 2. Steps -/

inductive Act where
  -- the startup
  | scan (found : List (ModelConfiguration × Text))
  | skipStartup
  | create (ok : Bool)
  | beginBuilds (names : List Text)
  | beginBuild
  | endBuild (ok : Bool)
  | dropStartup
  -- `load_model`
  | acquire (config : ModelConfiguration) (dir : Text)
  | giveUp
  | insertPath
  | insertModel
  | insertExecutor
  | check
  | finish
  | fail
  | rollback
  -- `unload_model`
  | unload (name : Text)
deriving DecidableEq

/-- What the scan publishes. -/
def Sys.publish (s : Sys) : List (ModelConfiguration × Text) → Sys
  | [] => s
  | (c, dir) :: found =>
    Sys.publish { s with
      models := s.models.insert c.name c
      modelPaths := s.modelPaths.insert c.name dir } found

/-- One step of the load that holds the gate. -/
def Sys.loadStep (s : Sys) (l : Load) : Act → Option Sys
  | .giveUp => if l.phase = .acquired then some { s with gate := none } else none
  | .insertPath =>
    if l.phase = .acquired then
      some { s with
        modelPaths := s.modelPaths.insert l.config.name l.dir
        gate := some { l with phase := .pathIn } }
    else none
  | .insertModel =>
    if l.phase = .pathIn then
      some { s with
        models := s.models.insert l.config.name l.config
        gate := some { l with phase := .published } }
    else none
  | .fail =>
    if l.phase = .published then some { s with gate := some { l with phase := .failed } } else none
  | .insertExecutor =>
    if l.phase = .published then
      some { s with
        executors := s.executors.insert l.config.name ()
        gate := some { l with phase := .executorIn } }
    else none
  | .check =>
    if l.phase = .executorIn then
      some { s with
        gate := some { l with phase := if s.ready l.config.name then .checked else .failed } }
    else none
  | .finish => if l.phase = .checked then some { s.rebuilt with gate := none } else none
  | .rollback =>
    match l.phase with
    | .failed =>
      some { s with
        models := s.models.erase l.config.name
        gate := some { l with phase := .modelOut } }
    | .modelOut =>
      some { s with
        executors := s.executors.erase l.config.name
        gate := some { l with phase := .executorOut } }
    | .executorOut =>
      some { s with
        modelPaths := s.modelPaths.erase l.config.name
        gate := some { l with phase := .pathOut } }
    | .pathOut => some { s.rebuilt with gate := none }
    | _ => none
  | _ => none

/-- The engine can be used: `load_models_and_executors` has returned. -/
def Startup.shared : Startup → Bool
  | .before => false
  | .creating _ => false
  | _ => true

def Sys.startupStep (s : Sys) : Act → Option Sys
  | .scan found =>
    if s.startup = .before ∧ found.all fun f => f.1.enabled then
      some { (s.publish found).rebuilt with startup := .creating (found.map Prod.fst) }
    else none
  | .skipStartup => if s.startup = .before then some { s with startup := .past } else none
  | .create ok =>
    match s.startup with
    | .creating (c :: rest) =>
      if ok then
        some { s with
          executors := s.executors.insert c.name ()
          startup := .creating rest }
      else
        -- the executor map has no entry for it yet
        some { s with
          models := s.models.erase c.name
          modelPaths := s.modelPaths.erase c.name
          startup := .creating rest }
    | _ => none
  | .beginBuilds names =>
    if s.startup = .creating [] ∧ names.Perm s.executors.keys then
      some { s with startup := .building names }
    else none
  | .beginBuild =>
    match s.startup with
    | .building [] => some { s with startup := .past }
    | .building (n :: rest) =>
      if (s.models.lookup n).isNone then some { s with startup := .past }
      else if (s.executors.lookup n).isNone then some { s with startup := .building rest }
      else some { s with startup := .awaiting n rest }
    | _ => none
  | .endBuild ok =>
    match s.startup with
    | .awaiting n rest =>
      if ok then some { s with startup := .building rest }
      else some { s.dropped n with startup := .building rest }
    | _ => none
  | .dropStartup =>
    match s.startup with
    | .awaiting _ _ => some { s with startup := .past }
    | _ => none
  | _ => none

def Sys.step (s : Sys) : Act → Option Sys
  | .acquire config dir =>
    if s.startup.shared ∧ s.gate = none ∧ config.enabled ∧ !s.ready config.name then
      some { s with gate := some ⟨config, dir, .acquired⟩ }
    else none
  | .unload name =>
    if s.startup.shared ∧ (s.models.lookup name).isSome then some (s.dropped name).rebuilt
    else none
  | .scan found => s.startupStep (.scan found)
  | .skipStartup => s.startupStep .skipStartup
  | .create ok => s.startupStep (.create ok)
  | .beginBuilds names => s.startupStep (.beginBuilds names)
  | .beginBuild => s.startupStep .beginBuild
  | .endBuild ok => s.startupStep (.endBuild ok)
  | .dropStartup => s.startupStep .dropStartup
  | a => s.gate.bind fun l => s.loadStep l a

/-- The condition on the startup: the scan finds each name once, and a model whose executor cannot
    be created or built is not one that a route leads to, nor one that is just being loaded
    again. -/
def Sys.careful (s : Sys) : Act → Bool
  | .scan found => decide (found.map fun f => f.1.name).Nodup
  | .create false =>
    match s.startup with
    | .creating (c :: _) => !s.resolver.routes c.name
    | _ => true
  | .endBuild false =>
    match s.startup with
    | .awaiting n _ => !s.resolver.routes n && s.gate.all fun l => l.config.name != n
    | _ => true
  | _ => true

/-! ## 3. The invariant -/

/-- The maps and the resolver agree. -/
structure Sys.Consistent (s : Sys) : Prop where
  named : ∀ k c, s.models.lookup k = some c → c.name = k
  executors : ∀ n, n ∈ s.models ↔ n ∈ s.executors
  paths : ∀ n, n ∈ s.models ↔ n ∈ s.modelPaths
  described : s.resolver.Describes (· ∈ s.configs)

/-- The load has changed a map, and has not yet put it right. -/
def Load.dirty (l : Load) : Bool :=
  match l.phase with
  | .acquired => false
  | .checked => false
  | _ => true

/-- What is known about the load's own model. -/
def Load.Own (l : Load) (s : Sys) : Prop :=
  match l.phase with
  | .acquired => l.config.name ∉ s.models
  | .pathIn => l.config.name ∈ s.modelPaths ∧ l.config.name ∉ s.models
  | .published => l.config.name ∈ s.models → l.config.name ∈ s.modelPaths
  | .executorIn => l.config.name ∈ s.models → l.config.name ∈ s.modelPaths
  | .modelOut => l.config.name ∉ s.models
  | .executorOut => l.config.name ∉ s.models ∧ l.config.name ∉ s.executors
  | .pathOut =>
    l.config.name ∉ s.models ∧ l.config.name ∉ s.executors ∧ l.config.name ∉ s.modelPaths
  | _ => True

/-- The maps agree, but for the model of a load in progress. -/
structure Aligned (s : Sys) : Prop where
  keys : ∀ n, (∀ l ∈ s.gate, l.dirty = true → n ≠ l.config.name) →
    (n ∈ s.models ↔ n ∈ s.executors) ∧ (n ∈ s.models ↔ n ∈ s.modelPaths)
  own : ∀ l ∈ s.gate, l.Own s

/-- While the executors are created. -/
structure Creating (s : Sys) (pending : List ModelConfiguration) : Prop where
  gate : s.gate = none
  nodup : (pending.map ModelConfiguration.name).Nodup
  listed : ∀ c ∈ pending, c.name ∈ s.models
  executors : ∀ n, n ∈ s.executors ↔ n ∈ s.models ∧ n ∉ pending.map ModelConfiguration.name
  paths : ∀ n, n ∈ s.models ↔ n ∈ s.modelPaths
  described : s.resolver.Describes (· ∈ s.configs)

structure Inv (s : Sys) : Prop where
  named : ∀ k c, s.models.lookup k = some c → c.name = k
  before : s.startup = .before → s = .new
  creating : ∀ pending, s.startup = .creating pending → Creating s pending
  aligned : s.startup.shared = true → Aligned s
  described : s.startup.shared = true → (∀ l ∈ s.gate, l.phase = .acquired) →
    s.resolver.Describes (· ∈ s.configs)

/-- Every model is under its own name. -/
def Named (models : AList fun _ : Text => ModelConfiguration) : Prop :=
  ∀ k c, models.lookup k = some c → c.name = k

/-- The maps agree about a name. -/
def Sys.Agree (s : Sys) (n : Text) : Prop :=
  (n ∈ s.models ↔ n ∈ s.executors) ∧ (n ∈ s.models ↔ n ∈ s.modelPaths)

variable {s : Sys}

theorem new_empty (n : Text) :
    n ∉ Sys.new.models ∧ n ∉ Sys.new.executors ∧ n ∉ Sys.new.modelPaths :=
  ⟨notMem_empty n, notMem_empty n, notMem_empty n⟩

theorem new_agree (n : Text) : Sys.new.Agree n :=
  ⟨iff_of_false (new_empty n).1 (new_empty n).2.1, iff_of_false (new_empty n).1 (new_empty n).2.2⟩

theorem mem_configs {c : ModelConfiguration} :
    c ∈ s.configs ↔ ∃ k, s.models.lookup k = some c := by
  unfold Sys.configs
  rw [mem_map]
  constructor
  · rintro ⟨e, he, rfl⟩
    exact ⟨e.1, mem_lookup_iff.mpr he⟩
  · rintro ⟨k, hk⟩
    exact ⟨⟨k, c⟩, mem_lookup_iff.mp hk, rfl⟩

theorem rebuilt_describes (s : Sys) : s.rebuilt.resolver.Describes (· ∈ s.rebuilt.configs) :=
  rebuild_describes s.configs

variable {name : Text}

/-- Without a model, the configurations are those with other names. -/
theorem mem_configs_erase {s' : Sys}
    (hn : Named s.models) (he : s'.models = s.models.erase name)
    (c : ModelConfiguration) : c ∈ s'.configs ↔ c ∈ s.configs ∧ c.name ≠ name := by
  rw [mem_configs, mem_configs, he]
  constructor
  · rintro ⟨k, hk⟩
    by_cases e : k = name
    · rw [e, lookup_erase] at hk
      cases hk
    · rw [lookup_erase_ne e] at hk
      exact ⟨⟨k, hk⟩, (hn k c hk).trans_ne e⟩
  · rintro ⟨⟨k, hk⟩, hne⟩
    refine ⟨k, ?_⟩
    rw [lookup_erase_ne ((hn k c hk) ▸ hne)]
    exact hk

theorem named_erase (hn : Named s.models) : Named (s.models.erase name) := by
  intro k c hk
  by_cases e : k = name
  · rw [e, lookup_erase] at hk
    cases hk
  · rw [lookup_erase_ne e] at hk
    exact hn k c hk

theorem named_insert {models : AList fun _ : Text => ModelConfiguration}
    {config : ModelConfiguration} (hn : Named models) :
    Named (models.insert config.name config) := by
  intro k c hk
  by_cases e : k = config.name
  · rw [e, lookup_insert] at hk
    rw [← Option.some.inj hk, e]
  · rw [lookup_insert_ne e] at hk
    exact hn k c hk

theorem ready_iff :
    s.ready name = true ↔ name ∈ s.models ∧ name ∈ s.executors := by
  unfold Sys.ready
  rw [Bool.and_eq_true, lookup_isSome, lookup_isSome]

/-! ## 4. Steps that keep it -/

/-- Taking a model out of all three maps keeps them aligned, unless a load has just entered its
    path. -/
theorem Aligned.dropped (h : Aligned s)
    (hpath : ∀ l ∈ s.gate, l.phase = .pathIn → l.config.name ≠ name) :
    Aligned (s.dropped name) where
  keys := by
    intro n hn
    obtain ⟨he, hp⟩ := h.keys n hn
    show (n ∈ s.models.erase name ↔ n ∈ s.executors.erase name) ∧
      (n ∈ s.models.erase name ↔ n ∈ s.modelPaths.erase name)
    simp only [mem_erase, he, hp.symm.trans he, and_self]
  own := by
    intro l hl
    have ho := h.own l hl
    have hp := hpath l hl
    obtain ⟨config, dir, phase⟩ := l
    cases phase with
    | acquired => exact fun hm => ho (mem_erase.mp hm).2
    | pathIn => exact ⟨mem_erase.mpr ⟨hp rfl, ho.1⟩, fun hm => ho.2 (mem_erase.mp hm).2⟩
    | published | executorIn =>
      intro hm
      obtain ⟨hne, hm⟩ := mem_erase.mp hm
      exact mem_erase.mpr ⟨hne, ho hm⟩
    | checked | failed => trivial
    | modelOut => exact fun hm => ho (mem_erase.mp hm).2
    | executorOut =>
      exact ⟨fun hm => ho.1 (mem_erase.mp hm).2, fun hm => ho.2 (mem_erase.mp hm).2⟩
    | pathOut =>
      exact ⟨fun hm => ho.1 (mem_erase.mp hm).2, fun hm => ho.2.1 (mem_erase.mp hm).2,
        fun hm => ho.2.2 (mem_erase.mp hm).2⟩

section Steps

variable {s' : Sys} {l : Load} {a : Act}

/-- A state of a shared engine, from its parts. -/
theorem Inv.of_shared (hs : s.startup.shared = true) (hn : Named s.models) (ha : Aligned s)
    (hd : (∀ l ∈ s.gate, l.phase = .acquired) → s.resolver.Describes (· ∈ s.configs)) : Inv s where
  named := hn
  before := fun h => by
    rw [h] at hs
    cases hs
  creating := fun pending h => by
    rw [h] at hs
    cases hs
  aligned := fun _ => ha
  described := fun _ => hd

/-- A state of the startup's first part, from its parts. -/
theorem Inv.of_creating {pending : List ModelConfiguration} (hs : s.startup = .creating pending)
    (hn : Named s.models) (hC : Creating s pending) : Inv s where
  named := hn
  before := fun h => by
    rw [h] at hs
    cases hs
  creating := fun others h => by
    rw [h] at hs
    cases hs
    exact hC
  aligned := fun h => by
    rw [hs] at h
    cases h
  described := fun h => by
    rw [hs] at h
    cases h

/-- A load in progress is one in a shared engine. -/
theorem Inv.shared_of_gate (hI : Inv s) (hg : s.gate = some l) : s.startup.shared = true := by
  cases hst : s.startup with
  | before =>
    rw [hI.before hst] at hg
    cases hg
  | creating pending =>
    rw [(hI.creating pending hst).gate] at hg
    cases hg
  | building | awaiting | past => rfl

/-- The names of other models than the load's. -/
theorem Aligned.others (h : Aligned s) (hg : s.gate = some l) {n : Text} (hn : n ≠ l.config.name) :
    s.Agree n := by
  refine h.keys n fun x hx _ => ?_
  rw [hg] at hx
  cases hx
  exact hn

/-- A dirty load only has to keep its own model in order. -/
theorem Inv.of_dirty {l' : Load} (hg : s'.gate = some l') (hdirty : l'.dirty = true)
    (hs : s'.startup.shared = true) (hn : Named s'.models)
    (hkeys : ∀ n, n ≠ l'.config.name → s'.Agree n)
    (hown : l'.Own s') : Inv s' := by
  have hl' : l' ∈ s'.gate := hg
  refine .of_shared hs hn ⟨fun n hn => hkeys n (hn l' hl' hdirty), fun x hx => ?_⟩ fun hall => ?_
  · cases hg.symm.trans hx
    exact hown
  · rw [Load.dirty, hall l' hl'] at hdirty
    cases hdirty

/-- Maps that agree everywhere. -/
theorem aligned_of_all (hkeys : ∀ n, s'.Agree n) (hown : ∀ l ∈ s'.gate, l.Own s') : Aligned s' :=
  ⟨fun n _ => hkeys n, hown⟩

/-- Without a load that has changed a map, they do. -/
theorem Aligned.all (h : Aligned s) (hclean : ∀ l ∈ s.gate, l.dirty = false) (n : Text) :
    s.Agree n := by
  refine h.keys n fun l hl hd => ?_
  rw [hclean l hl] at hd
  cases hd

/-- **One step of a load.** -/
theorem Inv.loadStep (hI : Inv s) (hg : s.gate = some l) (h : s.loadStep l a = some s') :
    Inv s' := by
  have hsh := hI.shared_of_gate hg
  have hA := hI.aligned hsh
  have hO : l.Own s := hA.own l (by rw [hg]; rfl)
  have hl : ∀ x ∈ s.gate, x = l := by
    rw [hg]
    exact fun x hx => (Option.some.inj hx).symm
  have hclean : l.dirty = false → ∀ n, s.Agree n := fun hd => hA.all fun x hx => hl x hx ▸ hd
  cases a with
  | giveUp =>
    obtain ⟨hp, rfl⟩ := guarded h
    refine .of_shared hsh hI.named (aligned_of_all (hclean ?_) fun x hx => by cases hx) fun _ => ?_
    · rw [Load.dirty, hp]
    · exact hI.described hsh fun x hx => hl x hx ▸ hp
  | insertPath =>
    obtain ⟨hp, rfl⟩ := guarded h
    rw [Load.Own, hp] at hO
    refine .of_dirty rfl rfl hsh hI.named (fun n hn => ?_) ?_
    · obtain ⟨he, hpth⟩ := hA.others hg hn
      refine ⟨he, ?_⟩
      rw [mem_insert]
      exact hpth.trans (or_iff_right hn).symm
    · exact ⟨(mem_insert _).mpr (.inl rfl), hO⟩
  | insertModel =>
    obtain ⟨hp, rfl⟩ := guarded h
    rw [Load.Own, hp] at hO
    refine .of_dirty rfl rfl hsh (named_insert hI.named) (fun n hn => ?_) ?_
    · obtain ⟨he, hpth⟩ := hA.others hg hn
      simp only [Sys.Agree, mem_insert]
      exact ⟨(or_iff_right hn).trans he, (or_iff_right hn).trans hpth⟩
    · exact fun _ => hO.1
  | fail =>
    obtain ⟨hp, rfl⟩ := guarded h
    exact .of_dirty rfl rfl hsh hI.named (fun n hn => hA.others hg hn) trivial
  | insertExecutor =>
    obtain ⟨hp, rfl⟩ := guarded h
    rw [Load.Own, hp] at hO
    refine .of_dirty rfl rfl hsh hI.named (fun n hn => ?_) hO
    obtain ⟨he, hpth⟩ := hA.others hg hn
    refine ⟨?_, hpth⟩
    rw [mem_insert]
    exact he.trans (or_iff_right hn).symm
  | check =>
    obtain ⟨hp, rfl⟩ := guarded h
    rw [Load.Own, hp] at hO
    by_cases hr : s.ready l.config.name = true
    · -- the model is in all three maps
      obtain ⟨hm, he⟩ := ready_iff.mp hr
      simp only [hr, if_true]
      refine .of_shared hsh hI.named (aligned_of_all (fun n => ?_) ?_)
        fun hall => nomatch hall _ rfl
      · by_cases hn : n = l.config.name
        · rw [hn]
          exact ⟨iff_of_true hm he, iff_of_true hm (hO hm)⟩
        · exact hA.others hg hn
      · intro x hx
        cases hx
        trivial
    · simp only [hr]
      exact .of_dirty rfl rfl hsh hI.named (fun n hn => hA.others hg hn) trivial
  | finish =>
    obtain ⟨hp, rfl⟩ := guarded h
    refine .of_shared hsh hI.named (aligned_of_all (hclean ?_) fun x hx => by cases hx)
      fun _ => rebuilt_describes s
    rw [Load.dirty, hp]
  | rollback =>
    simp only [Sys.loadStep] at h
    split at h
    · cases h
      refine .of_dirty rfl rfl hsh (named_erase hI.named) (fun n hn => ?_) ?_
      · obtain ⟨he, hpth⟩ := hA.others hg hn
        simp only [Sys.Agree, mem_erase]
        exact ⟨(and_iff_right hn).trans he, (and_iff_right hn).trans hpth⟩
      · exact fun hm => (mem_erase.mp hm).1 rfl
    · rename_i hp
      cases h
      rw [Load.Own, hp] at hO
      refine .of_dirty rfl rfl hsh hI.named (fun n hn => ?_) ?_
      · obtain ⟨he, hpth⟩ := hA.others hg hn
        refine ⟨?_, hpth⟩
        rw [mem_erase]
        exact he.trans (and_iff_right hn).symm
      · exact ⟨hO, fun hm => (mem_erase.mp hm).1 rfl⟩
    · rename_i hp
      cases h
      rw [Load.Own, hp] at hO
      refine .of_dirty rfl rfl hsh hI.named (fun n hn => ?_) ?_
      · obtain ⟨he, hpth⟩ := hA.others hg hn
        refine ⟨he, ?_⟩
        rw [mem_erase]
        exact hpth.trans (and_iff_right hn).symm
      · exact ⟨hO.1, hO.2, fun hm => (mem_erase.mp hm).1 rfl⟩
    · rename_i hp
      cases h
      rw [Load.Own, hp] at hO
      refine .of_shared hsh hI.named (aligned_of_all (fun n => ?_) fun x hx => by cases hx)
        fun _ => rebuilt_describes s
      by_cases hn : n = l.config.name
      · rw [hn]
        exact ⟨iff_of_false hO.1 hO.2.1, iff_of_false hO.1 hO.2.2⟩
      · exact hA.others hg hn
    · cases h
  | _ => cases h

/-! ### The startup -/

/-- What the scan has published. -/
theorem publish_spec (found : List (ModelConfiguration × Text)) : ∀ {s : Sys},
    Named s.models → Named (s.publish found).models ∧
    (∀ n, n ∈ (s.publish found).models ↔ n ∈ s.models ∨ n ∈ found.map fun f => f.1.name) ∧
    (∀ n, n ∈ (s.publish found).modelPaths ↔ n ∈ s.modelPaths ∨ n ∈ found.map fun f => f.1.name) ∧
    (s.publish found).executors = s.executors ∧ (s.publish found).gate = s.gate := by
  induction found with
  | nil =>
    intro s hn
    exact ⟨hn, by simp [Sys.publish], by simp [Sys.publish], rfl, rfl⟩
  | cons f found ih =>
    intro s hn
    obtain ⟨h1, h2, h3, h4, h5⟩ := ih (s := { s with
      models := s.models.insert f.1.name f.1
      modelPaths := s.modelPaths.insert f.1.name f.2 }) (named_insert hn)
    refine ⟨h1, fun n => ?_, fun n => ?_, h4, h5⟩
    · rw [Sys.publish, h2]
      simp only [mem_insert, map_cons, mem_cons]
      tauto
    · rw [Sys.publish, h3]
      simp only [mem_insert, map_cons, mem_cons]
      tauto

/-- Where only the startup's own state changes. -/
theorem Inv.of_startup (hI : Inv s) (hsh : s.startup.shared = true) {st : Startup}
    (hst : st.shared = true) : Inv { s with startup := st } :=
  .of_shared hst hI.named ⟨(hI.aligned hsh).keys, (hI.aligned hsh).own⟩ (hI.described hsh)

/-- **One step of the startup**, if it is a careful one. -/
theorem Inv.startupStep (hI : Inv s) (hc : s.careful a = true)
    (h : s.startupStep a = some s') : Inv s' := by
  cases a with
  | scan found =>
    obtain ⟨⟨hb, -⟩, rfl⟩ := guarded h
    have hnew := hI.before hb
    obtain ⟨h1, h2, h3, h4, h5⟩ := publish_spec found hI.named
    have hnames : (found.map Prod.fst).map ModelConfiguration.name = found.map fun f =>
        f.1.name := by
      rw [map_map]
      rfl
    have hempty : ∀ n, n ∉ s.models ∧ n ∉ s.executors ∧ n ∉ s.modelPaths := hnew ▸ new_empty
    refine .of_creating rfl h1 {
      gate := h5.trans (by rw [hnew]; rfl)
      nodup := by
        rw [hnames]
        simpa [Sys.careful] using hc
      listed := fun c hc => (h2 c.name).mpr (.inr (by rw [← hnames]; exact mem_map_of_mem hc))
      executors := fun n => ?_
      paths := fun n => ?_
      described := rebuilt_describes _ }
    · rw [hnames]
      show n ∈ (s.publish found).executors ↔ n ∈ (s.publish found).models ∧ _
      rw [h4, h2]
      constructor
      · exact fun hn => absurd hn (hempty n).2.1
      · rintro ⟨hn | hn, hout⟩
        · exact absurd hn (hempty n).1
        · exact absurd hn hout
    · show n ∈ (s.publish found).models ↔ n ∈ (s.publish found).modelPaths
      rw [h2, h3]
      simp only [(hempty n).1, (hempty n).2.2]
  | skipStartup =>
    obtain ⟨hb, rfl⟩ := guarded h
    have hnew := hI.before hb
    subst hnew
    exact .of_shared rfl hI.named (aligned_of_all new_agree fun x hx => by cases hx)
      fun _ => rebuild_describes []
  | create ok =>
    simp only [Sys.startupStep] at h
    split at h
    · rename_i c rest hst
      have hC := hI.creating _ hst
      obtain ⟨hcr, hnd⟩ := nodup_cons.mp hC.nodup
      have hin := hC.listed c mem_cons_self
      split at h
      · cases h
        refine .of_creating rfl hI.named {
          gate := hC.gate
          nodup := hnd
          listed := fun d hd => hC.listed d (mem_cons_of_mem _ hd)
          executors := fun n => ?_
          paths := hC.paths
          described := hC.described }
        show n ∈ s.executors.insert c.name () ↔ n ∈ s.models ∧ _
        rw [mem_insert, hC.executors n, map_cons, mem_cons, not_or]
        by_cases hn : n = c.name
        · subst hn
          exact iff_of_true (.inl rfl) ⟨hin, hcr⟩
        · simp [hn]
      · rename_i hok
        cases h
        have hroute : s.resolver.routes c.name = false := by
          simpa [Sys.careful, hok, hst] using hc
        refine .of_creating rfl (named_erase hI.named) {
          gate := hC.gate
          nodup := hnd
          listed := fun d hd => ?_
          executors := fun n => ?_
          paths := fun n => ?_
          described := (hC.described.erase hroute).congr (mem_configs_erase hI.named rfl) }
        · refine mem_erase.mpr ⟨fun e => hcr ?_, hC.listed d (mem_cons_of_mem _ hd)⟩
          exact mem_map.mpr ⟨d, hd, e⟩
        · show n ∈ s.executors ↔ n ∈ s.models.erase c.name ∧ _
          rw [mem_erase, hC.executors n, map_cons, mem_cons, not_or]
          tauto
        · show n ∈ s.models.erase c.name ↔ n ∈ s.modelPaths.erase c.name
          rw [mem_erase, mem_erase, hC.paths n]
    · cases h
  | beginBuilds names =>
    obtain ⟨⟨hst, -⟩, rfl⟩ := guarded h
    have hC := hI.creating _ hst
    refine .of_shared rfl hI.named (aligned_of_all (fun n => ⟨?_, hC.paths n⟩) fun x hx => ?_)
      fun _ => hC.described
    · show n ∈ s.models ↔ n ∈ s.executors
      rw [hC.executors n]
      simp
    · have hx : x ∈ s.gate := hx
      rw [hC.gate] at hx
      cases hx
  | beginBuild =>
    simp only [Sys.startupStep] at h
    split at h
    · rename_i hst
      cases h
      exact hI.of_startup (by rw [hst]; rfl) rfl
    · rename_i n rest hst
      have hsh : s.startup.shared = true := by rw [hst]; rfl
      split at h
      · cases h
        exact hI.of_startup hsh rfl
      · split at h
        · cases h
          exact hI.of_startup hsh rfl
        · cases h
          exact hI.of_startup hsh rfl
    · cases h
  | endBuild ok =>
    simp only [Sys.startupStep] at h
    split at h
    · rename_i n rest hst
      have hsh : s.startup.shared = true := by rw [hst]; rfl
      split at h
      · cases h
        exact hI.of_startup hsh rfl
      · rename_i hok
        cases h
        have hcare : s.resolver.routes n = false ∧ ∀ l ∈ s.gate, l.config.name ≠ n := by
          simpa [Sys.careful, hok, hst, Option.all_eq_true] using hc
        have hA := (hI.aligned hsh).dropped fun l hl _ => hcare.2 l hl
        refine .of_shared rfl (named_erase hI.named) ⟨hA.keys, hA.own⟩ fun hall => ?_
        exact ((hI.described hsh hall).erase hcare.1).congr (mem_configs_erase hI.named rfl)
    · cases h
  | dropStartup =>
    simp only [Sys.startupStep] at h
    split at h
    · rename_i n rest hst
      cases h
      exact hI.of_startup (by rw [hst]; rfl) rfl
    · cases h
  | _ => cases h

/-! ### All steps -/

theorem Inv.acquire (hI : Inv s) {config : ModelConfiguration} {dir : Text}
    (h : s.step (.acquire config dir) = some s') : Inv s' := by
  obtain ⟨⟨hsh, hg, -, hr⟩, rfl⟩ := guarded h
  have hA := hI.aligned hsh
  have hno : ∀ x, x ∉ s.gate := by
    rw [hg]
    exact fun x hx => by cases hx
  have hall : ∀ n, s.Agree n := hA.all fun x hx => absurd hx (hno x)
  refine .of_shared hsh hI.named (aligned_of_all hall fun x hx => ?_)
    fun _ => hI.described hsh fun x hx => absurd hx (hno x)
  cases hx
  -- it is not ready, so it is in neither map
  intro hm
  have : s.ready config.name = true := ready_iff.mpr ⟨hm, (hall _).1.mp hm⟩
  rw [this] at hr
  cases hr

theorem Inv.unload (hI : Inv s) (h : s.step (.unload name) = some s') : Inv s' := by
  obtain ⟨⟨hsh, hin⟩, rfl⟩ := guarded h
  have hpath : ∀ l ∈ s.gate, l.phase = .pathIn → l.config.name ≠ name := by
    intro l hl hp e
    have hO := (hI.aligned hsh).own l hl
    rw [Load.Own, hp] at hO
    exact hO.2 (e ▸ lookup_isSome.mp hin)
  have hA := (hI.aligned hsh).dropped hpath
  exact .of_shared hsh (named_erase hI.named) ⟨hA.keys, hA.own⟩ fun _ => rebuilt_describes _

/-- **One step**, if it is a careful one. -/
theorem Inv.step (hI : Inv s) (hc : s.careful a = true) (h : s.step a = some s') :
    Inv s' := by
  have hload : ∀ {b : Act}, (s.gate.bind fun l => s.loadStep l b) = some s' → Inv s' := by
    intro b hb
    obtain ⟨l, hg, hl⟩ := Option.bind_eq_some_iff.mp hb
    exact hI.loadStep hg hl
  cases a with
  | acquire config dir => exact hI.acquire h
  | unload name => exact hI.unload h
  | giveUp | insertPath | insertModel | insertExecutor | check | finish | fail | rollback =>
    exact hload h
  | _ => exact hI.startupStep hc h

end Steps

/-! ## 5. Runs -/

theorem inv_new : Inv .new where
  named := fun k c h => by
    have h : (∅ : AList fun _ : Text => ModelConfiguration).lookup k = some c := h
    rw [lookup_empty] at h
    cases h
  before := fun _ => rfl
  creating := fun _ h => by cases h
  aligned := fun h => by cases h
  described := fun h => by cases h

/-- `load_models_and_executors` is not under way, and no load holds the gate. -/
def Sys.settled (s : Sys) : Bool :=
  s.gate.isNone && match s.startup with
    | .creating _ => false
    | _ => true

/-- **Consistency.** In every run whose startup steps are careful, in every state without a load in
    progress the three maps have the same keys and the resolver describes the models. -/
theorem settled_consistent {s : Sys} (h : Reach Sys.step (fun s a => s.careful a = true) .new s)
    (hs : s.settled = true) : s.Consistent := by
  have hI : Inv s := h.invariant inv_new fun _ _ _ hI hc hstep => hI.step hc hstep
  obtain ⟨hg, hst⟩ := Bool.and_eq_true_iff.mp hs
  rw [Option.isNone_iff_eq_none] at hg
  have hno : ∀ x, x ∉ s.gate := by
    rw [hg]
    exact fun x hx => by cases hx
  have hshared : s.startup.shared = true → s.Consistent := by
    intro hsh
    have hkeys := (hI.aligned hsh).all fun x hx => absurd hx (hno x)
    exact ⟨hI.named, fun n => (hkeys n).1, fun n => (hkeys n).2,
      hI.described hsh fun x hx => absurd hx (hno x)⟩
  cases e : s.startup with
  | before =>
    have hnew := hI.before e
    subst hnew
    exact ⟨hI.named, fun n => (new_agree n).1, fun n => (new_agree n).2, rebuild_describes []⟩
  | creating pending =>
    rw [e] at hst
    cases hst
  | building | awaiting | past => exact hshared (by rw [e]; rfl)

/-- A startup with two models, a load that is dropped half way, one that ends, and an unload between
    its steps. -/
def sampleRun : List Act :=
  [.scan [(embedder ['b'], ['d']), (embedder ['a'], ['e'])], .create true, .create true,
    .beginBuilds [['a'], ['b']], .beginBuild, .endBuild true, .beginBuild,
    .acquire (embedder ['c']) ['f'], .insertPath, .insertModel, .fail, .rollback, .rollback,
    .rollback, .rollback, .endBuild true, .beginBuild, .acquire (embedder ['c']) ['f'],
    .insertPath, .insertModel, .unload ['a'], .insertExecutor, .check, .finish]

theorem sampleRun_consistent :
    ∃ s, (Reach Sys.step (fun s a => s.careful a = true) .new s ∧
      (s.settled && (s.resolver.resolveEmbed ['c'] == some ['c']) &&
        (s.resolver.resolveEmbed ['a']).isNone) = true) ∧ s.Consistent := by
  have hrun : (runWhile Sys.step (fun s a => s.careful a = true) .new sampleRun).any (fun s =>
      s.settled && (s.resolver.resolveEmbed ['c'] == some ['c']) &&
        (s.resolver.resolveEmbed ['a']).isNone) = true := by decide +kernel
  obtain ⟨s, hreach, hs⟩ := Reach.exists_of_runWhile hrun
  refine ⟨s, ⟨hreach, hs⟩, settled_consistent hreach ?_⟩
  obtain ⟨hs, -⟩ := Bool.and_eq_true_iff.mp hs
  exact (Bool.and_eq_true_iff.mp hs).1

/-- The executor of the only model cannot be built: nothing is loaded any more, and its name is
    still resolved. -/
theorem dropped_route :
    ∃ s, Reach Sys.step (fun _ _ => True) .new s ∧
      (s.settled && s.configs.isEmpty && (s.resolver.resolveEmbed ['a'] == some ['a'])) = true ∧
      ¬ s.Consistent := by
  have hrun : (runWhile Sys.step (fun _ _ => True) .new [.scan [(embedder ['a'], ['d'])],
      .create true, .beginBuilds [['a']], .beginBuild, .endBuild false]).any (fun s =>
      s.settled && s.configs.isEmpty && (s.resolver.resolveEmbed ['a'] == some ['a'])) = true := by
    decide +kernel
  obtain ⟨s, hreach, hs⟩ := Reach.exists_of_runWhile hrun
  refine ⟨s, hreach, hs, fun hc => ?_⟩
  obtain ⟨hs, hroute⟩ := Bool.and_eq_true_iff.mp hs
  obtain ⟨-, hempty⟩ := Bool.and_eq_true_iff.mp hs
  -- a route needs a loaded model that declares it
  obtain ⟨c, hc, -⟩ := (hc.described.embed.declared ['a']).mp ⟨['a'], beq_iff_eq.mp hroute⟩
  rw [List.isEmpty_iff.mp hempty] at hc
  cases hc

end Postvec.Engine
