import Postvec.Lib.Postorder
import Postvec.Registry.IndexSpec

/-!
# What a pull installs

`expand_closure` of the registry client: the names asked for and, transitively, what their models
require, dependencies before their dependents. The walk keeps the models that are done, in install
order, why each of them is installed, and the names that are being walked.

* a model may be asked for after it was met as a requirement; its reason is then raised;
* a withdrawn model is refused when it is asked for, not when another model requires it;
* the recursion is bounded by the number of models. That bound and the lookup of a reason that was
  never noted (a panic in the source) are refusals of their own here, which no valid index meets.

On an index the validator accepts the walk is a dependency-first enumeration
(`expandClosure_exact`).
-/

namespace Postvec.Registry

open Machine Machine.Paths Machine.Postorder Relation List

/-! ## 1. The walk -/

/-- Why a model is pulled. -/
inductive PullReason where
  | requested
  | engineDependency
  | postvecCompanion
deriving DecidableEq, Repr

/-- The reason, as it is shown. -/
def PullReason.describe : PullReason → String
  | .requested => "requested"
  | .engineDependency => "engine dependency"
  | .postvecCompanion => "postvec companion"

/-- Why the closure cannot be made. -/
inductive ExpandError where
  | absent (name : Text) (requestedBy : Option Text)
  | withdrawn (name : Text)
  | cycle (name : Text)
  /-- deeper than there are models -/
  | overflow
  /-- a model in the order without a reason -/
  | unlabelled (name : Text)
deriving DecidableEq

/-- Where the caller's access is shown. -/
def dashboardUrl : String := "https://univec.ai/dashboard"

/-- The message, and the advice that follows it. -/
def ExpandError.message (quoted : Text → String) (authenticated : Bool) :
    ExpandError → String × String
  | .absent name requestedBy =>
    let context := requestedBy.elim "" fun parent => " (required by " ++ String.ofList parent ++ ")"
    if authenticated then
      (String.ofList name ++ " is not in your catalogue" ++ context,
        "check `postvec whoami`; if you expect access, see " ++ dashboardUrl)
    else
      ("the selected registry channel does not offer " ++ quoted name ++ context,
        "run `postvec model ls --available` to see the catalogue; " ++
          "private entries need `postvec login`")
  | .withdrawn name => (String.ofList name ++ " has been withdrawn from the registry",
      "its successor is listed by `postvec model ls --available`")
  | .cycle name => ("dependency cycle through " ++ String.ofList name, "")
  | .overflow => ("stack overflow", "")
  | .unlabelled _ => ("no entry found for key", "")

/-- A model of the closure, with its reason. -/
structure ClosureEntry where
  model : IndexModel
  reason : PullReason
deriving DecidableEq

/-- The model of a name. -/
def Index.model (index : Index) (name : Text) : Option IndexModel :=
  index.models.find? fun m => m.name == name

/-- The variables of the walk: reasons, the order so far, the models begun. -/
structure Expansion where
  reasons : Text → Option PullReason
  order : List IndexModel
  inProgress : Finset Text

/-- Before the first name. -/
def Expansion.start : Expansion := ⟨fun _ => none, [], ∅⟩

/-- The loops: over the dependencies, over the companions, over the names asked for. -/
def expandAll (visit : Text → Expansion → Except ExpandError Expansion) :
    List Text → Expansion → Except ExpandError Expansion
  | [], s => .ok s
  | name :: names, s => do
    let s ← visit name s
    expandAll visit names s

/-- The inner `visit`. `left` bounds the depth. -/
def expand (index : Index) (left : Nat) (requestedBy : Option Text) (reason : PullReason)
    (name : Text)
    (s : Expansion) : Except ExpandError Expansion :=
  match index.model name with
  | none => .error (.absent name requestedBy)
  | some model =>
    if model.withdrawn && requestedBy.isNone then .error (.withdrawn name)
    else
      match s.reasons model.name with
      | some _ =>
        -- requested beats derived
        if reason = .requested then
          .ok { s with reasons := Function.update s.reasons model.name (some reason) }
        else .ok s
      | none =>
        if model.name ∈ s.inProgress then .error (.cycle name)
        else
          match left with
          | 0 => .error .overflow
          | left + 1 => do
            let s ← expandAll (expand index left (some model.name) .engineDependency)
              model.dependencies { s with inProgress := insert model.name s.inProgress }
            let s ← expandAll (expand index left (some model.name) .postvecCompanion)
              model.postvecRequires s
            .ok
              { reasons := Function.update s.reasons model.name (some reason)
                order := s.order ++ [model]
                inProgress := s.inProgress.erase model.name }

/-- The models with their reasons. -/
def label (reasons : Text → Option PullReason) :
    List IndexModel → Except ExpandError (List ClosureEntry)
  | [] => .ok []
  | m :: ms =>
    match reasons m.name with
    | none => .error (.unlabelled m.name)
    | some reason => do
      let entries ← label reasons ms
      .ok (⟨m, reason⟩ :: entries)

/-- `expand_closure`: the models to pull, each after what it requires. -/
def expandClosure (index : Index) (requested : List Text) :
    Except ExpandError (List ClosureEntry) := do
  let s ← expandAll (expand index (index.models.length + 1) none .requested) requested .start
  label s.reasons s.order

/-! ## 2. What a walk does -/

/-- What a name requires. -/
def Index.requires (index : Index) (name : Text) : List Text :=
  (index.model name).elim [] IndexModel.requirements

/-- The names of the models done, in order. -/
def Expansion.names (s : Expansion) : List Text := s.order.map IndexModel.name

/-- The models done are those of the index, and exactly they have a reason. -/
structure Expansion.Sound (index : Index) (s : Expansion) : Prop where
  first : DepFirst index.requires s.names
  listed : ∀ m ∈ s.order, index.model m.name = some m
  labelled : ∀ n, (s.reasons n).isSome ↔ n ∈ s.names

/-- A walk from `names`, for the reason given. -/
structure Walked (index : Index) (reason : PullReason) (names : List Text) (s s' : Expansion) :
    Prop where
  sound : s'.Sound index
  adds : Adds index.requires names s.names s'.names
  marks : s'.inProgress = s.inProgress
  asked : ∀ n, s'.reasons n = some .requested ↔
    s.reasons n = some .requested ∨ (reason = .requested ∧ n ∈ names)

variable {index : Index} {reason : PullReason} {name : Text} {names : List Text}
  {s s' : Expansion} {m : IndexModel} {s'' : Expansion}

theorem Walked.none (h : s.Sound index) : Walked index reason [] s s :=
  ⟨h, .none h.first, rfl, by simp⟩

theorem Walked.cons (h : Walked index reason [name] s s')
    (h' : Walked index reason names s' s'') : Walked index reason (name :: names) s s'' where
  sound := h'.sound
  adds := h.adds.append h'.adds
  marks := h'.marks.trans h.marks
  asked := by
    intro n
    rw [h'.asked, h.asked, or_assoc, ← and_or_left, mem_singleton, mem_cons]

/-- Two walks for reasons that are not `requested`. -/
theorem Walked.append {r r' : PullReason} {xs ys : List Text}
    (hr : r ≠ .requested) (hr' : r' ≠ .requested) (h : Walked index r xs s s')
    (h' : Walked index r' ys s' s'') :
    Adds index.requires (xs ++ ys) s.names s''.names ∧
      ∀ n, s''.reasons n = some .requested ↔ s.reasons n = some .requested := by
  refine ⟨h.adds.append h'.adds, fun n => ?_⟩
  simp [h'.asked, h.asked, hr, hr']

variable (reason) in
/-- A model that is done. -/
theorem Walked.of_done (h : s.Sound index) (hm : (s.reasons name).isSome) :
    Walked index reason [name] s
      (if reason = .requested then
          { s with reasons := Function.update s.reasons name (some reason) }
        else s) := by
  have hmem : name ∈ s.names := (h.labelled name).mp hm
  split
  · rename_i hr
    refine ⟨⟨h.first, h.listed, fun n => ?_⟩, .of_mem h.first hmem, rfl, fun n => ?_⟩
    · show (Function.update s.reasons name (some reason) n).isSome ↔ n ∈ s.names
      rcases eq_or_ne n name with rfl | hn
      · simp [hmem]
      · rw [Function.update_of_ne hn]
        exact h.labelled n
    · show Function.update s.reasons name (some reason) n = _ ↔ _
      rcases eq_or_ne n name with rfl | hn
      · simp [hr]
      · simp [hn]
  · rename_i hr
    exact ⟨h, .of_mem h.first hmem, rfl, by simp [hr]⟩

/-- A model after what it requires. -/
theorem Walked.of_requirements {n : Nat} {s₁ s₂ : Expansion} (hmodel : index.model m.name = some m)
    (hwithin : Within index.requires n m.name) (hmark : m.name ∉ s.inProgress)
    (h : s.Sound index) (hnew : s.reasons m.name = .none)
    (h₁ : Walked index .engineDependency m.dependencies
      { s with inProgress := insert m.name s.inProgress } s₁)
    (h₂ : Walked index .postvecCompanion m.postvecRequires s₁ s₂) :
    Walked index reason [m.name] s
      { reasons := Function.update s₂.reasons m.name (some reason)
        order := s₂.order ++ [m]
        inProgress := s₂.inProgress.erase m.name } := by
  obtain ⟨hadds, hasked⟩ := h₁.append (by decide) (by decide) h₂
  have hreq : index.requires m.name = m.dependencies ++ m.postvecRequires := by
    rw [Index.requires, hmodel]
    rfl
  have hnot : m.name ∉ s.names := by
    rw [← h.labelled, hnew]
    simp
  have hvisit : Adds index.requires [m.name] s.names (s₂.names ++ [m.name]) := by
    refine Adds.visit hwithin hnot ?_
    rw [hreq]
    exact hadds
  have hnames : (s₂.order ++ [m]).map IndexModel.name = s₂.names ++ [m.name] := map_append
  refine ⟨⟨?_, ?_, fun n => ?_⟩, ?_, ?_, fun n => ?_⟩
  · rw [Expansion.names, hnames]
    exact hvisit.first
  · intro k hk
    rcases mem_append.mp hk with hk | hk
    · exact h₂.sound.listed k hk
    · rw [mem_singleton.mp hk]
      exact hmodel
  · rw [Expansion.names, hnames, mem_append, mem_singleton]
    show (Function.update s₂.reasons m.name (some reason) n).isSome ↔ _
    rcases eq_or_ne n m.name with rfl | hn
    · simp
    · rw [Function.update_of_ne hn, h₂.sound.labelled]
      simp [hn]
  · rw [Expansion.names, Expansion.names, hnames]
    exact hvisit
  · show s₂.inProgress.erase m.name = s.inProgress
    rw [h₂.marks, h₁.marks]
    exact Finset.erase_insert hmark
  · show Function.update s₂.reasons m.name (some reason) n = _ ↔ _
    rcases eq_or_ne n m.name with rfl | hn
    · simp [hnew]
    · rw [Function.update_of_ne hn, hasked]
      simp [hn]

/-! ## 3. The walk on a valid index -/

theorem model_some (h : index.model name = some m) : m ∈ index.models ∧ m.name = name :=
  ⟨mem_of_find?_eq_some h, by simpa using List.find?_some h⟩

theorem requires_eq (h : index.model name = some m) : index.requires name = m.requirements := by
  rw [Index.requires, h]
  rfl

variable {policy : EntitlementIdPolicy} {dep : Text} {left : Nat} {marks : Finset Text}

theorem WellFormed.offers (hW : WellFormed policy index)
    (hdep : dep ∈ index.requires name) : ∃ t, index.model dep = some t := by
  unfold Index.requires at hdep
  cases hm : index.model name with
  | none => simp [hm] at hdep
  | some m =>
    rw [hm] at hdep
    obtain ⟨t, ht, e, -⟩ := hW.provided m (model_some hm).1 dep hdep
    refine Option.isSome_iff_exists.mp (List.find?_isSome.mpr ⟨t, ht, ?_⟩)
    simp [e]

theorem WellFormed.within (hW : WellFormed policy index) (name : Text) :
    ∃ n, Within index.requires n name := by
  obtain ⟨rank, hrank⟩ := hW.ranked
  refine ⟨rank name + 1, Within.of_rank rank ?_ (Nat.lt_succ_self _)⟩
  intro x y hy
  unfold Index.requires at hy
  cases hm : index.model x with
  | none => simp [hm] at hy
  | some m =>
    rw [hm] at hy
    obtain ⟨hmem, rfl⟩ := model_some hm
    exact hrank _ (mem_map_of_mem hmem) y hy

/-- The marks when the walk is at `name`: names of the index that require `name`. -/
structure Above (index : Index) (left : Nat) (marks : Finset Text) (name : Text) : Prop where
  reach : ∀ p ∈ marks, TransGen (Edge index.requires) p name
  listed : marks ⊆ (index.models.map IndexModel.name).toFinset
  left : left + marks.card = index.models.length + 1

/-- The marks when the walk is at a requirement. -/
theorem Above.enter (h : Above index (left + 1) marks name)
    (hm : index.model name = some m) (hmark : name ∉ marks)
    (hdep : dep ∈ index.requires name) : Above index left (insert name marks) dep where
  reach := by
    intro p hp
    rcases Finset.mem_insert.mp hp with rfl | hp
    · exact .single hdep
    · exact .tail (h.reach p hp) hdep
  listed := by
    refine Finset.insert_subset ?_ h.listed
    obtain ⟨hmem, rfl⟩ := model_some hm
    exact mem_toFinset.mpr (mem_map_of_mem hmem)
  left := by
    have := h.left
    rw [Finset.card_insert_of_notMem hmark]
    omega

/-- There is room for one more. -/
theorem Above.left_pos (h : Above index left marks name) :
    left ≠ 0 := by
  have hcard : marks.card ≤ index.models.length := by
    calc marks.card ≤ ((index.models.map IndexModel.name).toFinset).card :=
          Finset.card_le_card h.listed
      _ ≤ (index.models.map IndexModel.name).length := toFinset_card_le _
      _ = index.models.length := length_map _
  have := h.left
  omega

variable (names) in
/-- A loop over names, each of which is walked right whatever was done before it. -/
theorem expandAll_walked {visit : Text → Expansion → Except ExpandError Expansion}
    (hv : ∀ x ∈ names, ∀ s, s.Sound index → s.inProgress = marks →
      ∃ s', visit x s = .ok s' ∧ Walked index reason [x] s s') :
    ∀ {s : Expansion}, s.Sound index → s.inProgress = marks →
      ∃ s', expandAll visit names s = .ok s' ∧ Walked index reason names s s' := by
  induction names with
  | nil => exact fun {s} h _ => ⟨s, rfl, .none h⟩
  | cons x xs ih =>
    intro s h hmarks
    obtain ⟨s₁, he, hw⟩ := hv x mem_cons_self s h hmarks
    obtain ⟨s₂, he₂, hw₂⟩ := ih (fun y hy => hv y (mem_cons_of_mem _ hy)) hw.sound
      (hw.marks.trans hmarks)
    refine ⟨s₂, ?_, hw.cons hw₂⟩
    rw [expandAll, he]
    exact he₂

/-- **One name.** It is offered, and not withdrawn if nothing requires it. -/
theorem expand_walked (hW : WellFormed policy index) :
    ∀ {left : Nat} (requestedBy : Option Text) (reason : PullReason) {name : Text} {m : IndexModel}
      {s : Expansion}, index.model name = some m → (m.withdrawn && requestedBy.isNone) = false →
      s.Sound index → Above index left s.inProgress name →
      ∃ s', expand index left requestedBy reason name s = .ok s' ∧
        Walked index reason [name] s s' := by
  intro left
  induction left with
  | zero =>
    intro _ _ _ _ _ _ _ _ habove
    exact absurd rfl habove.left_pos
  | succ left ih =>
    intro requestedBy reason name m s hm hoffered hs habove
    obtain ⟨n, hwithin⟩ := hW.within name
    obtain ⟨-, rfl⟩ := model_some hm
    have hmark : m.name ∉ s.inProgress := fun h => hwithin.irrefl (habove.reach _ h)
    unfold expand
    simp only [hm, hoffered, Bool.false_eq_true, if_false]
    cases hr : s.reasons m.name with
    | some _ =>
      have hdone := Walked.of_done reason hs (Option.isSome_iff_exists.mpr ⟨_, hr⟩)
      by_cases hreq : reason = .requested
      · simp only [hreq, if_true] at hdone ⊢
        exact ⟨_, rfl, hdone⟩
      · simp only [hreq, if_false] at hdone ⊢
        exact ⟨_, rfl, hdone⟩
    | none =>
      simp only [hmark, if_false]
      -- what is walked from here is required by the model, so it is offered
      have hbelow : ∀ r, ∀ x ∈ index.requires m.name, ∀ t : Expansion, t.Sound index →
          t.inProgress = insert m.name s.inProgress →
          ∃ t', expand index left (some m.name) r x t = .ok t' ∧ Walked index r [x] t t' := by
        intro r x hx t ht hmarks
        obtain ⟨k, hk⟩ := hW.offers hx
        refine ih _ r hk (by simp) ht ?_
        rw [hmarks]
        exact habove.enter hm hmark hx
      have hreq : index.requires m.name = m.dependencies ++ m.postvecRequires := requires_eq hm
      have hs' : Expansion.Sound index { s with inProgress := insert m.name s.inProgress } :=
        ⟨hs.first, hs.listed, hs.labelled⟩
      obtain ⟨s₁, he₁, h₁⟩ := expandAll_walked m.dependencies
        (fun x hx => hbelow .engineDependency x (hreq ▸ mem_append_left _ hx)) hs' rfl
      obtain ⟨s₂, he₂, h₂⟩ := expandAll_walked m.postvecRequires
        (fun x hx => hbelow .postvecCompanion x (hreq ▸ mem_append_right _ hx)) h₁.sound h₁.marks
      refine ⟨_, ?_, Walked.of_requirements hm hwithin hmark hs hr h₁ h₂⟩
      simp only [bind, Except.bind, he₁, he₂]

/-! ## 4. The names asked for -/

/-- Why a name cannot be asked for. -/
def Index.refusal (index : Index) (name : Text) : Option ExpandError :=
  match index.model name with
  | none => some (.absent name .none)
  | some m => if m.withdrawn then some (.withdrawn name) else .none

/-- A name that cannot be asked for is refused, whatever was walked before it. -/
theorem expand_refused {e : ExpandError} (h : index.refusal name = some e) :
    expand index left .none reason name s = .error e := by
  unfold Index.refusal at h
  unfold expand
  cases hm : index.model name with
  | none =>
    rw [hm] at h
    cases h
    rfl
  | some m =>
    rw [hm] at h
    cases hwd : m.withdrawn with
    | false => simp [hwd] at h
    | true =>
      simp only [hwd, if_true, Option.some.injEq] at h
      simp [hwd, h]

/-- The loop over the names asked for, from a state between two of them. -/
theorem expandAll_requested (hW : WellFormed policy index) :
    ∀ (requested : List Text) {s : Expansion},
    s.Sound index → s.inProgress = ∅ →
    (∃ n ∈ requested, ∃ e, index.refusal n = some e ∧
      expandAll (expand index (index.models.length + 1) .none .requested) requested s = .error e) ∨
    ((∀ n ∈ requested, index.refusal n = .none) ∧
      ∃ s', expandAll (expand index (index.models.length + 1) .none .requested) requested s =
          .ok s' ∧
        Walked index .requested requested s s')
  | [], s, h, _ => .inr ⟨by simp, s, rfl, .none h⟩
  | n :: ns, s, h, hmarks => by
    cases hn : index.refusal n with
    | some e =>
      refine .inl ⟨n, mem_cons_self, e, hn, ?_⟩
      rw [expandAll, expand_refused hn]
      rfl
    | none =>
      obtain ⟨m, hm, hwd⟩ : ∃ m, index.model n = some m ∧ m.withdrawn = false := by
        unfold Index.refusal at hn
        cases hm : index.model n with
        | none => simp [hm] at hn
        | some m => exact ⟨m, rfl, by simpa [hm] using hn⟩
      have habove : Above index (index.models.length + 1) s.inProgress n := by
        rw [hmarks]
        exact ⟨by simp, by simp, by simp⟩
      obtain ⟨s₁, he, hw⟩ :=
        expand_walked hW .none .requested hm (by simp [hwd]) h habove
      have hstep : expandAll (expand index (index.models.length + 1) .none .requested) (n :: ns) s =
          expandAll (expand index (index.models.length + 1) .none .requested) ns s₁ := by
        rw [expandAll, he]
        rfl
      rw [hstep]
      rcases expandAll_requested hW ns hw.sound (hw.marks.trans hmarks) with
        ⟨k, hk, e, hr, he'⟩ | ⟨hall, s₂, he₂, hw₂⟩
      · exact .inl ⟨k, mem_cons_of_mem _ hk, e, hr, he'⟩
      · exact .inr ⟨forall_mem_cons.mpr ⟨hn, hall⟩, s₂, he₂, hw.cons hw₂⟩

theorem label_ok (reasons : Text → Option PullReason) : ∀ {ms : List IndexModel},
    (∀ m ∈ ms, (reasons m.name).isSome) →
    ∃ entries, label reasons ms = .ok entries ∧ entries.map ClosureEntry.model = ms ∧
      ∀ e ∈ entries, reasons e.model.name = some e.reason
  | [], _ => ⟨[], rfl, rfl, by simp⟩
  | m :: ms, h => by
    obtain ⟨hm, hms⟩ := forall_mem_cons.mp h
    obtain ⟨r, hr⟩ := Option.isSome_iff_exists.mp hm
    obtain ⟨entries, he, hmap, hall⟩ := label_ok reasons hms
    refine ⟨⟨m, r⟩ :: entries, ?_, by simp [hmap], forall_mem_cons.mpr ⟨hr, hall⟩⟩
    rw [label, hr]
    simp [he, bind, Except.bind]

/-- What a pull of `requested` should install, in which order and why. -/
structure Expanded (index : Index) (requested : List Text) (entries : List ClosureEntry) :
    Prop where
  listed : ∀ e ∈ entries, index.model e.model.name = some e.model
  /-- each model once, after the models it requires -/
  first : DepFirst index.requires (entries.map fun e => e.model.name)
  exact : ∀ n, n ∈ (entries.map fun e => e.model.name) ↔
    Reaches index.requires requested n
  reason : ∀ e ∈ entries, e.reason = .requested ↔ e.model.name ∈ requested

/-- **The closure of a pull.** On an index the validator accepts, the walk fails exactly if a name
    that is asked for is absent or withdrawn, and then with that refusal; no cycle is met. Otherwise
    it is a dependency-first enumeration of what the names reach, and exactly the names have the
    reason `requested`. -/
theorem expandClosure_exact (hvalid : validateWith policy index = .ok ()) (requested : List Text) :
    ((∃ e, expandClosure index requested = .error e) ↔ ∃ n ∈ requested, (index.refusal n).isSome) ∧
    (∀ e, expandClosure index requested = .error e → ∃ n ∈ requested, index.refusal n = some e) ∧
    (∀ n, expandClosure index requested ≠ .error (.cycle n)) ∧
    (∀ entries, expandClosure index requested = .ok entries →
      Expanded index requested entries) := by
  have hW := validateWith_ok_iff.mp hvalid
  have hstart : Expansion.start.Sound index := ⟨.nil, by simp [Expansion.start], by
    simp [Expansion.start, Expansion.names]⟩
  rcases expandAll_requested hW requested hstart rfl with
    ⟨n, hn, e, hr, he⟩ | ⟨hall, s, he, hw⟩
  · have herr : expandClosure index requested = .error e := by
      rw [expandClosure, he]
      rfl
    rw [herr]
    refine ⟨⟨fun _ => ⟨n, hn, by simp [hr]⟩, fun _ => ⟨e, rfl⟩⟩, ?_, ?_, by simp⟩
    · intro e' he'
      cases he'
      exact ⟨n, hn, hr⟩
    · intro k hk
      cases hk
      unfold Index.refusal at hr
      split at hr
      · cases hr
      · split at hr <;> cases hr
  · obtain ⟨entries, hlabel, hmap, hreasons⟩ := label_ok s.reasons
      fun m hm => (hw.sound.labelled _).mpr (mem_map_of_mem (f := IndexModel.name) hm)
    have hok : expandClosure index requested = .ok entries := by
      rw [expandClosure, he]
      exact hlabel
    have hnames : (entries.map fun e => e.model.name) = s.names := by
      rw [Expansion.names, ← hmap, List.map_map]
      rfl
    rw [hok]
    refine ⟨⟨by simp, fun ⟨n, hn, h⟩ => by simp [hall n hn] at h⟩, by simp, by simp, ?_⟩
    rintro _ ⟨⟩
    refine ⟨fun e he => ?_, hnames ▸ hw.sound.first, fun n => ?_, fun e he => ?_⟩
    · refine hw.sound.listed e.model ?_
      rw [← hmap]
      exact mem_map_of_mem he
    · rw [hnames, hw.adds.exact]
      simp [Expansion.start, Expansion.names]
    · have hiff := hw.asked e.model.name
      rw [hreasons e he] at hiff
      simpa [Expansion.start] using hiff

/-- The index of the example above: `big` brings `base`, whose reason is raised when it is asked
    for. -/
theorem sampleIndex_expanded :
    validateWith .acceptUnknown sampleIndex = .ok () ∧
      ∃ entries, expandClosure sampleIndex ["big".toList, "base".toList] = .ok entries ∧
        Expanded sampleIndex ["big".toList, "base".toList] entries ∧
        entries.map (fun e => (e.model.name, e.reason)) =
          [("base".toList, .requested), ("big".toList, .requested)] := by
  have hvalid : validateWith .acceptUnknown sampleIndex = .ok () := by decide +kernel
  refine ⟨hvalid, _, by rfl, (expandClosure_exact hvalid _).2.2.2 _ (by rfl), by decide +kernel⟩

end Postvec.Registry
