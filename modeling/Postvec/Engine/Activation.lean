import Postvec.Engine.AdmissionSpec
import Postvec.Lib.Postorder

/-!
# Activating a model with what it needs

`disabled_closure_to_enable` of the registry client lists the deactivated models that must be
enabled with the names an operator activates; `admin_load_closure` of the server walks the same
graph when a model is then loaded, and refuses a closure with a deactivated member. The first walk
shares its marks between the roots and turns back at depth 33 without a word.

Where no chain of installed models has more than 32 edges the depth is never met, and the list has
the disabled ones of a dependency-first enumeration (`Marks`, `enable_marks`).
-/

namespace Postvec.Engine.Admission

open Machine.Paths Machine.Postorder Relation List

/-! ## 1. The walks -/

structure InstalledModel where
  dirName : Text
  enabled : Bool
  dependencies : List Text
deriving DecidableEq

/-- `by_name`: a map made from the list, so the last model of a name stays. -/
def byName (inventory : List InstalledModel) (name : Text) : Option InstalledModel :=
  inventory.reverse.find? fun m => m.dirName == name

structure Enabling where
  visited : Finset Text
  ordered : List Text

/-- The inner `visit`; `left` is what is left of the depth. -/
def enable (inventory : List InstalledModel) : Nat → Enabling → Text → Enabling
  | 0, s, _ => s
  | left + 1, s, name =>
    if name ∈ s.visited then s
    else
      let entered := { s with visited := insert name s.visited }
      match byName inventory name with
      | none => entered
      | some model =>
        let s := model.dependencies.foldl (enable inventory left) entered
        if model.enabled then s else { s with ordered := s.ordered ++ [name] }

def disabledClosureToEnable (inventory : List InstalledModel) (names : List Text) : List Text :=
  (names.foldl (enable inventory (maxDependencyDepth + 1)) ⟨∅, []⟩).ordered

/-- The descriptors once the listed models are enabled. -/
def activate (inventory : List InstalledModel) (listed : List Text) : List InstalledModel :=
  inventory.map fun m => if m.dirName ∈ listed then { m with enabled := true } else m

inductive LoadRefusal (P : Type) where
  | walk (refusal : Refusal P)
  /-- the deactivated members, in ascending order -/
  | deactivated (name : Text) (members : Finset Text)

/-- `usize::MAX` -/
def usizeMax : Nat := 2 ^ 64 - 1

def adminLoadClosure {P : Type} (emptyName : P → Text) (parse : P → Except Text Descriptor)
    (index : DescriptorIndex P) (name : Text) : Except (LoadRefusal P) (Finset Text) :=
  match closureOf emptyName parse index [name] usizeMax with
  | .error e => .error (.walk e)
  | .ok closure =>
    if closure.disabled = ∅ then .ok closure.planned
    else .error (.deactivated name closure.disabled)

/-! ## 2. The graph -/

section graph

variable (inventory : List InstalledModel)

def Installed (name : Text) : Bool := (byName inventory name).isSome

def Deactivated (name : Text) : Bool := (byName inventory name).any fun m => !m.enabled

/-- All dependencies of a name, installed or not. -/
def dependencies (name : Text) : List Text :=
  (byName inventory name).elim [] InstalledModel.dependencies

/-- The installed ones. -/
def links (name : Text) : List Text := (dependencies inventory name).filter (Installed inventory)

end graph

variable {inventory : List InstalledModel} {name : Text} {m : InstalledModel} {listed : List Text}

theorem byName_some (h : byName inventory name = some m) : m ∈ inventory ∧ m.dirName = name :=
  ⟨mem_reverse.mp (mem_of_find?_eq_some h), by simpa using List.find?_some h⟩

theorem byName_activate : byName (activate inventory listed) name =
    (byName inventory name).map fun m =>
      if m.dirName ∈ listed then { m with enabled := true } else m := by
  unfold byName activate
  rw [← map_reverse, List.find?_map]
  congr 2
  funext m
  simp only [Function.comp_apply]
  split <;> rfl

/-! ## 3. What the first walk does -/

/-- The marks: of the installed names, those that are finished (`done`) and those being walked. -/
structure Marks (inventory : List InstalledModel) (stack : Finset Text) (done : List Text)
    (s : Enabling) : Prop where
  first : DepFirst (links inventory) done
  visited : ∀ n, Installed inventory n = true → (n ∈ s.visited ↔ n ∈ done ∨ n ∈ stack)
  ordered : s.ordered = done.filter (Deactivated inventory)

variable {stack : Finset Text} {done : List Text} {s : Enabling}

/-- A loop over names. -/
theorem foldl_marks {f : Enabling → Text → Enabling} (names : List Text)
    (hf : ∀ x ∈ names, ∀ done s, Marks inventory stack done s → ∃ done',
      Adds (links inventory) ([x].filter (Installed inventory)) done done' ∧
        Marks inventory stack done' (f s x)) :
    ∀ {done s}, Marks inventory stack done s → ∃ done',
      Adds (links inventory) (names.filter (Installed inventory)) done done' ∧
        Marks inventory stack done' (names.foldl f s) := by
  induction names with
  | nil => exact fun {done s} h => ⟨done, .none h.first, h⟩
  | cons x xs ih =>
    intro done s h
    obtain ⟨done₁, ha, h₁⟩ := hf x mem_cons_self done s h
    obtain ⟨done₂, ha₂, h₂⟩ := ih (fun y hy => hf y (mem_cons_of_mem _ hy)) h₁
    refine ⟨done₂, ?_, h₂⟩
    rw [← singleton_append, filter_append]
    exact ha.append ha₂

/-- A name that is not installed is marked and has no other effect. -/
theorem Marks.skip (h : Marks inventory stack done s) (hn : byName inventory name = none)
    (left : Nat) : Marks inventory stack done (enable inventory left s name) := by
  cases left with
  | zero => exact h
  | succ left =>
    unfold enable
    rw [hn]
    split
    · exact h
    · refine ⟨h.first, fun n hi => ?_, h.ordered⟩
      have hne : n ≠ name := by
        rintro rfl
        simp [Installed, hn] at hi
      rw [← h.visited n hi, Finset.mem_insert, or_iff_right hne]

/-- An installed name is finished after its dependencies. -/
theorem Marks.leave {n : Nat} {done' : List Text} (hm : byName inventory name = some m)
    (hw : Within (links inventory) n name) (hx : name ∉ done)
    (ha : Adds (links inventory) (links inventory name) done done')
    (h : Marks inventory (insert name stack) done' s) :
    Marks inventory stack (done' ++ [name])
      (if m.enabled then s else { s with ordered := s.ordered ++ [name] }) := by
  have hfirst : DepFirst (links inventory) (done' ++ [name]) := (ha.visit hw hx).first
  have hvisited : ∀ k, Installed inventory k = true →
      (k ∈ s.visited ↔ k ∈ done' ++ [name] ∨ k ∈ stack) := by
    intro k hk
    rw [h.visited k hk, Finset.mem_insert, mem_append, mem_singleton, or_assoc]
  cases he : m.enabled with
  | true | false =>
    refine ⟨hfirst, hvisited, ?_⟩
    simp [h.ordered, Deactivated, hm, he]

/-- **One name**: what is installed below it is finished, dependencies first. -/
theorem enable_marks : ∀ {left : Nat} {name : Text} {stack : Finset Text},
    (Installed inventory name = true → Within (links inventory) left name ∧
      ∀ p ∈ stack, TransGen (Edge (links inventory)) p name) →
    ∀ done s, Marks inventory stack done s → ∃ done',
      Adds (links inventory) ([name].filter (Installed inventory)) done done' ∧
        Marks inventory stack done' (enable inventory left s name) := by
  intro left
  induction left with
  | zero =>
    intro name stack hpre done s h
    cases hi : Installed inventory name with
    | true => exact (hpre hi).1.elim
    | false => exact ⟨done, by simpa [hi] using Adds.none h.first, h⟩
  | succ left ih =>
    intro name stack hpre done s h
    cases hm : byName inventory name with
    | none =>
      have hi : Installed inventory name = false := by simp [Installed, hm]
      exact ⟨done, by simpa [hi] using Adds.none h.first, h.skip hm _⟩
    | some m =>
      have hi : Installed inventory name = true := by simp [Installed, hm]
      obtain ⟨hw, hstack⟩ := hpre hi
      have hnot : name ∉ stack := fun hp => hw.irrefl (hstack name hp)
      rw [filter_singleton, hi, cond_true]
      unfold enable
      rw [hm]
      split
      · -- marked and not being walked: finished
        rename_i hv
        have hdone : name ∈ done := ((h.visited name hi).mp hv).resolve_right hnot
        exact ⟨done, .of_mem h.first hdone, h⟩
      · rename_i hv
        have hx : name ∉ done := fun hd => hv ((h.visited name hi).mpr (.inl hd))
        have hentered : Marks inventory (insert name stack) done
            { s with visited := insert name s.visited } := by
          refine ⟨h.first, fun n hn => ?_, h.ordered⟩
          rw [Finset.mem_insert, Finset.mem_insert, h.visited n hn, or_left_comm]
        have hlinks : m.dependencies.filter (Installed inventory) = links inventory name := by
          simp [links, dependencies, hm]
        have hbelow : ∀ x ∈ m.dependencies, Installed inventory x = true →
            Within (links inventory) left x ∧
              ∀ p ∈ insert name stack, TransGen (Edge (links inventory)) p x := by
          intro x hx hix
          have hedge : x ∈ links inventory name := hlinks ▸ mem_filter.mpr ⟨hx, hix⟩
          refine ⟨hw x hedge, fun p hp => ?_⟩
          rcases Finset.mem_insert.mp hp with rfl | hp
          · exact .single hedge
          · exact .tail (hstack p hp) hedge
        obtain ⟨done', ha, h'⟩ := foldl_marks m.dependencies (fun x hx => ih (hbelow x hx)) hentered
        rw [hlinks] at ha
        exact ⟨done' ++ [name], ha.visit hw hx, h'.leave hm hw hx ha⟩

/-! ## 4. What is listed -/

/-- What should be enabled with `names`. -/
structure Activates (inventory : List InstalledModel) (names listed : List Text) : Prop where
  nodup : listed.Nodup
  exact : ∀ n, n ∈ listed ↔ Deactivated inventory n = true ∧ Reaches (links inventory) names n
  /-- each after all the disabled models below it -/
  after : ∀ a x b, listed = a ++ x :: b → ∀ y, TransGen (Edge (links inventory)) x y →
    Deactivated inventory y = true → y ∈ a

variable {names : List Text}

section listed

variable (hshort : ∀ n u v, Steps (links inventory) n u v → n ≤ maxDependencyDepth)
include hshort

theorem disabledClosureToEnable_activates :
    Activates inventory names (disabledClosureToEnable inventory names) := by
  have hwithin : ∀ x, Within (links inventory) (maxDependencyDepth + 1) x := fun x =>
    .of_steps fun k v h => Nat.lt_succ_of_le (hshort k x v h)
  obtain ⟨done, ha, h⟩ := foldl_marks names
    (fun x _ => enable_marks fun _ => ⟨hwithin x, by simp⟩)
    (⟨.nil, by simp, rfl⟩ : Marks inventory ∅ [] ⟨∅, []⟩)
  have hlist : disabledClosureToEnable inventory names =
    done.filter (Deactivated inventory) := h.ordered
  have hdone : ∀ n, n ∈ done ↔ Reaches (links inventory) (names.filter (Installed inventory)) n :=
    fun n => by simpa using ha.exact n
  rw [hlist]
  refine ⟨h.first.nodup.filter _, fun n => ?_, fun a x b e y hy hd => ?_⟩
  · rw [mem_filter, hdone, and_comm]
    refine and_congr_right fun hd => ⟨fun ⟨r, hr, hreach⟩ => ⟨r, (mem_filter.mp hr).1, hreach⟩, ?_⟩
    -- a name that is not installed reaches only itself, and is not a deactivated model
    rintro ⟨r, hr, hreach⟩
    refine ⟨r, mem_filter.mpr ⟨hr, ?_⟩, hreach⟩
    cases hm : byName inventory r with
    | some m => simp [Installed, hm]
    | none =>
      have hno : links inventory r = [] := by simp [links, dependencies, hm]
      rcases ReflTransGen.cases_head hreach with rfl | ⟨z, hz, -⟩
      · simp [Deactivated, hm] at hd
      · simp [Edge, hno] at hz
  · obtain ⟨l₁, l₂, e₁, rfl, e₂⟩ := filter_eq_append_iff.mp e
    obtain ⟨l₃, l₄, rfl, hno, -, -⟩ := filter_eq_cons_iff.mp e₂
    have hbefore : y ∈ l₁ ++ l₃ := h.first.below (by rw [e₁, append_assoc]) hy
    rcases mem_append.mp hbefore with hy | hy
    · exact mem_filter.mpr ⟨hy, hd⟩
    · exact absurd hd (hno y hy)

end listed

/-! ## 5. The load that follows -/

/-- The server reads the descriptors of the inventory, one for each name. -/
def OnDisk {P : Type} (emptyName : P → Text) (parse : P → Except Text Descriptor)
    (index : DescriptorIndex P) (inventory : List InstalledModel) : Prop :=
  ∀ m ∈ inventory, ∃ path, index.get m.dirName = some [path] ∧
    readDescriptor emptyName parse path = .ok ⟨m.dirName, m.enabled, m.dependencies⟩

/-- Two graphs that agree on what one of them reaches. -/
theorem reaches_congr {f g : Text → List Text} {x : Text}
    (h : ∀ w, ReflTransGen (Edge f) x w → g w = f w) :
    (∀ v, ReflTransGen (Edge g) x v ↔ ReflTransGen (Edge f) x v) ∧
      ∀ n u v, ReflTransGen (Edge f) x u → Steps g n u v → Steps f n u v := by
  refine ⟨fun v => ⟨fun hv => ?_, fun hv => ?_⟩, fun n u v hu hs => ?_⟩
  · induction hv with
    | refl => exact .refl
    | @tail b c _ hstep ih => exact .tail ih (show c ∈ f b from h b ih ▸ hstep)
  · induction hv with
    | refl => exact .refl
    | @tail b c hb hstep ih => exact .tail ih (show c ∈ g b from (h b hb).symm ▸ hstep)
  · induction hs with
    | refl => exact .refl
    | @head n u w v he _ ih =>
      have he' : w ∈ f u := h u hu ▸ he
      exact .head he' (ih (.tail hu he'))

variable {P : Type} {emptyName : P → Text} {parse : P → Except Text Descriptor}
  {index : DescriptorIndex P}

theorem descriptorOf_onDisk (h : OnDisk emptyName parse index inventory)
    (hm : byName inventory name = some m) : ∃ path,
      descriptorOf (readDescriptor emptyName parse) index name =
        .ok (path, ⟨name, m.enabled, m.dependencies⟩) := by
  obtain ⟨hmem, rfl⟩ := byName_some hm
  obtain ⟨path, hget, hread⟩ := h m hmem
  refine ⟨path, ?_⟩
  unfold descriptorOf
  simp [hget, hread]

/-- After the listed models are enabled, a name below a requested one is enabled. -/
theorem descriptorOf_activated (ha : Activates inventory names listed)
    (hdisk : OnDisk emptyName parse index (activate inventory listed))
    (hi : Installed inventory name = true) (hr : Reaches (links inventory) names name) : ∃ path,
      descriptorOf (readDescriptor emptyName parse) index name =
        .ok (path, ⟨name, true, dependencies inventory name⟩) := by
  obtain ⟨m, hm⟩ := Option.isSome_iff_exists.mp hi
  have hact : byName (activate inventory listed) name =
      some (if m.dirName ∈ listed then { m with enabled := true } else m) := by
    rw [byName_activate, hm]
    rfl
  obtain ⟨path, hd⟩ := descriptorOf_onDisk hdisk hact
  refine ⟨path, ?_⟩
  rw [hd]
  have hdeps : dependencies inventory name = m.dependencies := by simp [dependencies, hm]
  rw [hdeps]
  split
  · rfl
  · -- not listed, so it was enabled before
    rename_i hno
    have henabled : m.enabled = true := by
      by_contra hoff
      refine hno ?_
      rw [(byName_some hm).2]
      exact (ha.exact name).mpr ⟨by simpa [Deactivated, hm] using hoff, hr⟩
    rw [henabled]

/-- **Activation enables exactly what is needed.** Where no chain of installed models has more than
    32 edges, the list names each deactivated model that the names reach once, after the deactivated
    models below it. Once these are enabled, the load of a requested name whose dependencies are
    installed finds no deactivated model: it is admitted with all it reaches. -/
theorem disabledClosureToEnable_exact
    (hshort : ∀ n u v, Steps (links inventory) n u v → n ≤ maxDependencyDepth) (names : List Text) :
    Activates inventory names (disabledClosureToEnable inventory names) ∧
      ∀ {P : Type} (emptyName : P → Text) (parse : P → Except Text Descriptor)
        (index : DescriptorIndex P), inventory.length ≤ usizeMax →
        OnDisk emptyName parse index
          (activate inventory (disabledClosureToEnable inventory names)) →
        ∀ name ∈ names, Installed inventory name = true →
        (∀ v, Reaches (dependencies inventory) [name] v → Installed inventory v = true) →
        ∃ planned, adminLoadClosure emptyName parse index name = .ok planned ∧
          ∀ v, v ∈ planned ↔ Reaches (dependencies inventory) [name] v := by
  have ha : Activates inventory names (disabledClosureToEnable inventory names) :=
    disabledClosureToEnable_activates hshort
  refine ⟨ha, fun {P} emptyName parse index hsize hdisk name hname hi hall => ?_⟩
  have hsingle : ∀ {f : Text → List Text} {v : Text}, Reaches f [name] v ↔
      ReflTransGen (Edge f) name v := by
    simp [Reaches]
  -- the three graphs agree below the name
  have hlinks : ∀ v, ReflTransGen (Edge (dependencies inventory)) name v →
      links inventory v = dependencies inventory v := by
    intro v hv
    refine filter_eq_self.mpr fun w hw => hall w (hsingle.mpr (.tail hv hw))
  have hreach := (reaches_congr hlinks).1
  have hdesc : ∀ v, ReflTransGen (Edge (dependencies inventory)) name v → ∃ path,
      descriptorOf (readDescriptor emptyName parse) index v =
        .ok (path, ⟨v, true, dependencies inventory v⟩) := fun v hv =>
    descriptorOf_activated ha hdisk (hall v (hsingle.mpr hv)) ⟨name, hname, (hreach v).mpr hv⟩
  have hnext : ∀ v, ReflTransGen (Edge (links inventory)) name v →
      next (readDescriptor emptyName parse) index v = links inventory v := by
    intro v hv
    obtain ⟨path, hd⟩ := hdesc v ((hreach v).mp hv)
    rw [next_eq hd, hlinks v ((hreach v).mp hv)]
  obtain ⟨hreach', hsteps⟩ := reaches_congr hnext
  have hreached : ∀ v, Reaches (next (readDescriptor emptyName parse) index) [name] v ↔
      ReflTransGen (Edge (dependencies inventory)) name v := by
    intro v
    rw [hsingle, hreach', hreach]
  have hbound : ∀ v, Reaches (next (readDescriptor emptyName parse) index) [name] v → ∀ k w,
      Steps (next (readDescriptor emptyName parse) index) k v w → k ≤ maxDependencyDepth := by
    intro v hv k w hs
    exact hshort k v w (hsteps k v w ((hreach' v).mp (hsingle.mp hv)) hs)
  have hadm : Admissible (readDescriptor emptyName parse) index usizeMax [name] := by
    refine ⟨⟨fun v hv => ?_, fun v hv => ?_, ?_⟩, fun r hr => ?_, fun r hr => ?_⟩
    · obtain ⟨path, hd⟩ := hdesc v ((hreached v).mp hv)
      exact ⟨path, _, hd⟩
    · have hw : Within (next (readDescriptor emptyName parse) index) (maxDependencyDepth + 1) v :=
        .of_steps fun k w hs => Nat.lt_succ_of_le (hbound v hv k w hs)
      exact hw.irrefl
    · -- what is reached is installed
      have hsub : {v | Reaches (next (readDescriptor emptyName parse) index) [name] v} ⊆
          ((inventory.map InstalledModel.dirName).toFinset : Set Text) := by
        intro v hv
        obtain ⟨m, hm⟩ := Option.isSome_iff_exists.mp (hall v (hsingle.mpr ((hreached v).mp hv)))
        obtain ⟨hmem, rfl⟩ := byName_some hm
        exact mem_toFinset.mpr (mem_map_of_mem hmem)
      refine (Set.encard_le_encard hsub).trans ?_
      rw [Set.encard_coe_eq_coe_finsetCard]
      refine Nat.cast_le.mpr ((toFinset_card_le _).trans ?_)
      rwa [length_map]
    · obtain rfl := mem_singleton.mp hr
      obtain ⟨path, hd⟩ := hdesc r .refl
      exact ⟨path, _, hd, rfl⟩
    · exact fun k w hs => hbound r (reaches_of_mem hr) k w hs
  obtain ⟨c, hc⟩ := walk_iff.mpr hadm.admitted
  obtain ⟨-, hplanned, hdisabled⟩ := walk_ok hc
  have hnone : c.disabled = ∅ := by
    refine Finset.eq_empty_of_forall_notMem fun v hv => ?_
    obtain ⟨hr, hd⟩ := (hdisabled v).mp hv
    obtain ⟨path, he⟩ := hdesc v ((hreached v).mp hr)
    exact Enabled.not_disabled ⟨path, _, he, rfl⟩ hd
  refine ⟨c.planned, ?_, fun v => ?_⟩
  · unfold adminLoadClosure closureOf
    simp [hc, hnone]
  · rw [hplanned, hreached, hsingle]

/-- A deactivated converter that needs a deactivated model. -/
def sampleInventory : List InstalledModel := [⟨['c'], false, [['b']]⟩, ⟨['b'], false, []⟩]

/-- The descriptors after the activation. -/
def sampleFiles : Nat → Except Text Descriptor
  | 0 => .ok ⟨['b'], true, []⟩
  | _ => .ok ⟨['c'], true, [['b']]⟩

def sampleDisk : DescriptorIndex Nat where
  entries := [(['b'], [0]), (['c'], [1])]
  sorted := by decide

theorem sampleInventory_edge {u w : Text} (h : w ∈ dependencies sampleInventory u) :
    u = ['c'] ∧ w = ['b'] := by
  unfold dependencies byName sampleInventory at h
  by_cases hb : ['b'] = u
  · subst hb
    simp at h
  · by_cases hc : ['c'] = u
    · subst hc
      exact ⟨rfl, by simpa using h⟩
    · simp [hb, hc] at h

theorem sampleInventory_activated :
    disabledClosureToEnable sampleInventory [['c']] = [['b'], ['c']] ∧
      ∃ planned, adminLoadClosure (fun _ => []) sampleFiles sampleDisk ['c'] = .ok planned ∧
        ['b'] ∈ planned := by
  have hshort : ∀ n u v, Steps (links sampleInventory) n u v → n ≤ maxDependencyDepth := by
    intro n u v h
    cases h with
    | refl => decide
    | head he ht =>
      obtain ⟨-, rfl⟩ := sampleInventory_edge (mem_filter.mp he).1
      cases ht with
      | refl => decide
      | head he' _ => exact absurd (sampleInventory_edge (mem_filter.mp he').1).1 (by decide)
  have hdisk : OnDisk (fun _ => []) sampleFiles sampleDisk
      (activate sampleInventory (disabledClosureToEnable sampleInventory [['c']])) := by
    have hact : activate sampleInventory (disabledClosureToEnable sampleInventory [['c']]) =
        [⟨['c'], true, [['b']]⟩, ⟨['b'], true, []⟩] := by decide
    intro m hm
    simp only [hact, mem_cons, not_mem_nil, or_false] at hm
    rcases hm with rfl | rfl
    · exact ⟨1, by rfl, by rfl⟩
    · exact ⟨0, by rfl, by rfl⟩
  have hall : ∀ v, Reaches (dependencies sampleInventory) [['c']] v →
      Installed sampleInventory v = true := by
    rintro v ⟨r, hr, h⟩
    obtain rfl := mem_singleton.mp hr
    rcases ReflTransGen.cases_tail h with rfl | ⟨u, -, he⟩
    · decide
    · rw [(sampleInventory_edge he).2]
      decide
  obtain ⟨planned, hok, hplanned⟩ := (disabledClosureToEnable_exact hshort [['c']]).2 _ _ sampleDisk
    (by decide) hdisk ['c'] (mem_singleton_self _) (by decide) hall
  have hedge : ['b'] ∈ dependencies sampleInventory ['c'] := by decide
  exact ⟨by decide, planned, hok, (hplanned _).mpr ⟨['c'], mem_singleton_self _, .single hedge⟩⟩

end Postvec.Engine.Admission
