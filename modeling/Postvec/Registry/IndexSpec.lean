import Postvec.Lib.Checks
import Postvec.Registry.Index

/-!
# What the validator accepts

`validateWith` runs its checks one after the other; `WellFormed` says the same of the index as a
whole, without an order and without state: the names differ, entries that name one terms document
agree on it, what an entry requires is listed and needs no entitlement the entry does not, and the
entries can be ranked above what they require.

* `validateWith_ok_iff`: the validator accepts exactly the well-formed indexes;
* `WellFormed.visible`: an index the gateway admits stays well formed, for clients too, when the
  entries a caller may not see are taken out, since whoever may see an entry may see what it
  requires;
* `part_valid_iff`: which parts of a valid index are valid, in any order.
-/

namespace Postvec.Registry

open Machine List

/-! ## 1. One entry -/

@[simp] theorem require_ok {ε : Type} {b : Bool} {f : ε} : require b f = .ok () ↔ b = true := by
  cases b <;> simp [require]

/-- The checks of an entry that do not look at the others. -/
structure EntryOk (policy : EntitlementIdPolicy) (channel : Text) (m : IndexModel) : Prop where
  name : validModelName m.name = .ok ()
  access : checkAccess channel m = .ok ()
  shape : checkShape m = .ok ()
  license : checkLicense m = .ok ()
  lists : checkLists policy m = .ok ()
  archive : checkArchive m = .ok ()

/-- The terms document an entry names, and what it says of it. -/
def IndexModel.document (m : IndexModel) : Option (Text × Option Text) :=
  m.license.map fun l => (l, m.licenseVersion)

def IndexModel.terms (m : IndexModel) : Option Text × Text := (m.licenseUrl, m.acceptance)

/-- The notes after an entry: a document named for the first time is added. -/
def noted (terms : List ((Text × Option Text) × (Option Text × Text))) (m : IndexModel) :
    List ((Text × Option Text) × (Option Text × Text)) :=
  match m.document with
  | none => terms
  | some doc => if (terms.lookup doc).isSome then terms else (doc, m.terms) :: terms

/-- What was noted about the entry's document is what the entry says of it. -/
def NotedOk (terms : List ((Text × Option Text) × (Option Text × Text))) (m : IndexModel) : Prop :=
  ∀ doc, m.document = some doc → ∀ said, terms.lookup doc = some said → said = m.terms

variable {m : IndexModel} {terms terms' : List ((Text × Option Text) × (Option Text × Text))}

theorem noteTerms_ok :
    noteTerms terms m = .ok terms' ↔ NotedOk terms m ∧ terms' = noted terms m := by
  unfold noteTerms NotedOk noted IndexModel.document
  cases m.license with
  | none => simp [eq_comm]
  | some l =>
    simp only [Option.map_some, Option.some.injEq, forall_eq']
    cases hl : terms.lookup (l, m.licenseVersion) with
    | none => simp [IndexModel.terms, eq_comm]
    | some said =>
      by_cases e : said = (m.licenseUrl, m.acceptance)
      · simp [IndexModel.terms, e, eq_comm]
      · simp [IndexModel.terms, e]

variable {policy : EntitlementIdPolicy} {channel : Text} {ms : List IndexModel} {dep : Text}

theorem checkEntry_ok :
    checkEntry policy channel terms m = .ok terms' ↔
      checkAccess channel m = .ok () ∧ checkShape m = .ok () ∧ checkLicense m = .ok () ∧
        (NotedOk terms m ∧ terms' = noted terms m) ∧ checkLists policy m = .ok () ∧
        checkArchive m = .ok () := by
  unfold checkEntry
  rw [check_ok, check_ok, check_ok, bind_ok]
  simp only [check_ok, pure, Except.pure, Except.ok.injEq, noteTerms_ok]
  constructor
  · rintro ⟨ha, hs, hl, _, hn, hls, har, rfl⟩
    exact ⟨ha, hs, hl, hn, hls, har⟩
  · rintro ⟨ha, hs, hl, hn, hls, har⟩
    exact ⟨ha, hs, hl, terms', hn, hls, har, rfl⟩

/-- The body of the loop. -/
theorem checkModel_ok {seen seen' : Seen} : checkModel policy channel seen m = .ok seen' ↔
      EntryOk policy channel m ∧ m.name ∉ seen.names ∧ NotedOk seen.terms m ∧
        seen' = ⟨m.name :: seen.names, noted seen.terms m⟩ := by
  unfold checkModel
  rw [check_ok, check_ok, bind_ok]
  simp only [mapError_ok, require_ok, checkEntry_ok, pure, Except.pure, Except.ok.injEq]
  constructor
  · rintro ⟨hname, hfresh, _, ⟨ha, hs, hl, ⟨hn, rfl⟩, hls, har⟩, rfl⟩
    exact ⟨⟨hname, ha, hs, hl, hls, har⟩, by simpa using hfresh, hn, rfl⟩
  · rintro ⟨⟨hname, ha, hs, hl, hls, har⟩, hfresh, hn, rfl⟩
    exact ⟨hname, by simpa using hfresh, _, ⟨ha, hs, hl, ⟨hn, rfl⟩, hls, har⟩, rfl⟩

/-! ## 2. The loop over the entries -/

/-- Entries that name one terms document agree on it. -/
def TermsAgree (ms : List IndexModel) : Prop :=
  ms.Pairwise fun m n => ∀ doc, m.document = some doc → n.document = some doc → m.terms = n.terms

/-- After an entry, what is noted agrees with another one exactly if it did before and the two
    do. -/
theorem notedOk_noted
    {n : IndexModel} (hm : NotedOk terms m) : NotedOk (noted terms m) n ↔ NotedOk terms n ∧
      ∀ doc, m.document = some doc → n.document = some doc → m.terms = n.terms := by
  unfold noted
  cases hdoc : m.document with
  | none => simp
  | some doc =>
    simp only [Option.some.injEq, forall_eq']
    cases hl : terms.lookup doc with
    | some said =>
      have hsaid : said = m.terms := hm doc hdoc said hl
      simp only [Option.isSome_some, if_true]
      refine ⟨fun h => ⟨h, fun hn => ?_⟩, fun h => h.1⟩
      rw [← hsaid]
      exact h doc hn said hl
    | none =>
      simp only [Option.isSome_none, Bool.false_eq_true, if_false]
      refine ⟨fun h => ⟨?_, ?_⟩, ?_⟩
      · intro d hn said hd
        have hne : d ≠ doc := by
          rintro rfl
          rw [hl] at hd
          cases hd
        refine h d hn said ?_
        rw [lookup_cons, beq_false_of_ne hne]
        exact hd
      · intro hn
        exact h doc hn m.terms lookup_cons_self
      · rintro ⟨hold, hnew⟩ d hn said hd
        rw [lookup_cons] at hd
        split at hd
        · rename_i e
          obtain rfl := eq_of_beq e
          cases hd
          exact hnew hn
        · exact hold d hn said hd

theorem checkModels_ok :
    ∀ {seen : Seen}, checkModels policy channel seen ms = .ok () ↔
      (∀ m ∈ ms, EntryOk policy channel m) ∧ (ms.map IndexModel.name).Nodup ∧
      (∀ m ∈ ms, m.name ∉ seen.names) ∧ (∀ m ∈ ms, NotedOk seen.terms m) ∧ TermsAgree ms := by
  induction ms with
  | nil =>
    intro seen
    simp [checkModels, TermsAgree]
  | cons m ms ih =>
    intro seen
    unfold checkModels
    rw [bind_ok]
    simp only [checkModel_ok, ih]
    constructor
    · rintro ⟨_, ⟨hm, hfresh, hn, rfl⟩, hall, hnd, hnames, hnoted, hterms⟩
      simp only [mem_cons, not_or] at hnames
      refine ⟨forall_mem_cons.mpr ⟨hm, hall⟩, ?_, ?_, ?_, ?_⟩
      · rw [map_cons, nodup_cons]
        refine ⟨fun hmem => ?_, hnd⟩
        obtain ⟨n, hn, e⟩ := mem_map.mp hmem
        exact (hnames n hn).1 e
      · exact forall_mem_cons.mpr ⟨hfresh, fun n hn => (hnames n hn).2⟩
      · exact forall_mem_cons.mpr
          ⟨hn, fun n hmem => ((notedOk_noted hn).mp (hnoted n hmem)).1⟩
      · exact pairwise_cons.mpr
          ⟨fun n hmem => ((notedOk_noted hn).mp (hnoted n hmem)).2, hterms⟩
    · rintro ⟨hall, hnd, hnames, hnoted, hterms⟩
      obtain ⟨hm, hall⟩ := forall_mem_cons.mp hall
      obtain ⟨hfresh, hnames⟩ := forall_mem_cons.mp hnames
      obtain ⟨hn, hnoted⟩ := forall_mem_cons.mp hnoted
      obtain ⟨hnew, hterms⟩ := pairwise_cons.mp hterms
      rw [map_cons, nodup_cons] at hnd
      refine ⟨_, ⟨hm, hfresh, hn, rfl⟩, hall, hnd.2, ?_,
        fun n hmem => (notedOk_noted hn).mpr ⟨hnoted n hmem, hnew n hmem⟩, hterms⟩
      intro n hmem h
      rcases mem_cons.mp h with e | h
      · exact hnd.1 (mem_map.mpr ⟨n, hmem, e⟩)
      · exact hnames n hmem h

/-! ## 3. The lists of an entry -/

theorem checkRepeated_ok {ds : List Text} : ∀ {seen : List Text},
    checkRepeated seen ds = .ok () ↔ ds.Nodup ∧ ∀ d ∈ ds, d ∉ seen := by
  induction ds with
  | nil => simp [checkRepeated]
  | cons d ds ih =>
    intro seen
    unfold checkRepeated
    by_cases h : d ∈ seen
    · simp [h]
    · rw [if_neg h, ih, nodup_cons]
      simp only [mem_cons, not_or, forall_eq_or_imp]
      constructor
      · rintro ⟨hnd, hds⟩
        exact ⟨⟨fun hd => (hds d hd).1 rfl, hnd⟩, h, fun x hx => (hds x hx).2⟩
      · rintro ⟨⟨hd, hnd⟩, -, hds⟩
        exact ⟨hnd, fun x hx => ⟨fun e => hd (e ▸ hx), hds x hx⟩⟩

/-- The two modes differ in one check: the strict one wants each id known. -/
theorem checkEntitlements_strict {ids : List Text} : ∀ {previous : Option Text},
    checkEntitlements .strict previous ids = .ok () ↔
      checkEntitlements .acceptUnknown previous ids = .ok () ∧
      ∀ i ∈ ids, i ∈ knownEntitlements := by
  induction ids with
  | nil => simp [checkEntitlements]
  | cons i ids ih =>
    intro previous
    have hknown : knownEntitlements.contains i = true ↔ i ∈ knownEntitlements := by simp
    unfold checkEntitlements
    simp only [check_ok, mapError_ok, require_ok, ih, ne_eq, not_true_eq_false, decide_false,
      Bool.false_or, reduceCtorEq, not_false_eq_true, decide_true, Bool.true_or, true_and,
      forall_mem_cons, hknown]
    tauto

theorem checkLists_strict : checkLists .strict m = .ok () ↔
    checkLists .acceptUnknown m = .ok () ∧ ∀ i ∈ m.requiredEntitlements, i ∈ knownEntitlements := by
  unfold checkLists
  simp only [check_ok, checkEntitlements_strict]
  tauto

theorem EntryOk.strict (h : EntryOk .acceptUnknown channel m)
    (hknown : ∀ i ∈ m.requiredEntitlements, i ∈ knownEntitlements) : EntryOk .strict channel m :=
  { h with lists := checkLists_strict.mpr ⟨h.lists, hknown⟩ }

/-- What an entry requires is listed once. -/
theorem EntryOk.nodup (h : EntryOk policy channel m) : m.requirements.Nodup := by
  have hl := h.lists
  unfold checkLists at hl
  simp only [check_ok] at hl
  exact (checkRepeated_ok.mp hl.2.2.1).1

/-! ## 4. What the entries require -/

/-- `dep`, required by `m`, is listed: public if `m` is, and without an entitlement that `m`
    lacks. -/
def Provided (models : List IndexModel) (m : IndexModel) (dep : Text) : Prop :=
  ∃ t ∈ models, t.name = dep ∧ (m.isPublic = true → t.isPublic = true) ∧
    ∀ r ∈ t.requiredEntitlements, r ∈ m.requiredEntitlements

theorem checkSubset_ok {rs : List Text} :
    checkSubset m dep rs = .ok () ↔ ∀ r ∈ rs, r ∈ m.requiredEntitlements := by
  induction rs with
  | nil => simp [checkSubset]
  | cons r rs ih =>
    unfold checkSubset
    rw [check_ok, require_ok, ih, forall_mem_cons, contains_iff_mem]

variable {models : List IndexModel}

section Names

variable (hnd : (models.map IndexModel.name).Nodup)
include hnd

theorem checkRequirement_ok :
    checkRequirement models m dep = .ok () ↔ Provided models m dep := by
  unfold checkRequirement Provided
  cases hf : models.find? fun t => t.name == dep with
  | none =>
    rw [List.find?_eq_none] at hf
    simp only [reduceCtorEq, false_iff, not_exists]
    rintro t ⟨ht, rfl, -⟩
    exact hf t ht (by simp)
  | some t =>
    have ht : t ∈ models := mem_of_find?_eq_some hf
    have hname : t.name = dep := by simpa using List.find?_some hf
    have honly : ∀ u ∈ models, u.name = dep → u = t := fun u hu e =>
      inj_on_of_nodup_map hnd hu ht (e.trans hname.symm)
    simp only [check_ok, require_ok, checkSubset_ok]
    constructor
    · rintro ⟨hpub, hsub⟩
      refine ⟨t, ht, hname, ?_, hsub⟩
      intro hm
      rw [hm] at hpub
      simpa using hpub
    · rintro ⟨u, hu, e, hpub, hsub⟩
      obtain rfl := honly u hu e
      refine ⟨?_, hsub⟩
      cases hm : m.isPublic with
      | false => rfl
      | true => rw [hpub hm]; rfl

theorem checkRequirements_ok {deps : List Text} :
    checkRequirements models m deps = .ok () ↔ ∀ dep ∈ deps, Provided models m dep := by
  induction deps with
  | nil => simp [checkRequirements]
  | cons dep deps ih =>
    unfold checkRequirements
    rw [check_ok, checkRequirement_ok hnd, ih, forall_mem_cons]

theorem checkReferences_ok : checkReferences models ms = .ok () ↔
      ∀ m ∈ ms, ∀ dep ∈ m.requirements, Provided models m dep := by
  induction ms with
  | nil => simp [checkReferences]
  | cons m ms ih =>
    unfold checkReferences
    rw [check_ok, mapError_ok, checkRequirements_ok hnd, ih, forall_mem_cons]

/-! ## 5. The cycle check -/

omit hnd in
theorem graph_names :
    (graph models).map Prod.fst = models.map IndexModel.name := by
  simp [graph, Function.comp_def]

omit hnd in
theorem mem_roots {n : Text} :
    n ∈ roots models ↔ ∃ m ∈ models, m.name = n ∧ inDegree models n = 0 := by
  unfold roots
  rw [mem_reverse, mem_filter, (perm_insertionSort _ _).mem_iff, mem_map]
  constructor
  · rintro ⟨⟨m, hm, e⟩, h0⟩
    exact ⟨m, hm, e, by simpa using h0⟩
  · rintro ⟨m, hm, e, h0⟩
    exact ⟨⟨m, hm, e⟩, by simpa using h0⟩

theorem lookup_graph (hm : m ∈ models) :
    (graph models).lookup m.name = some m.requirements := by
  induction models with
  | nil => cases hm
  | cons n models ih =>
    rw [map_cons, nodup_cons] at hnd
    show ((n.name, n.requirements) :: graph models).lookup m.name = some m.requirements
    rw [lookup_cons]
    rcases mem_cons.mp hm with rfl | hm
    · simp
    · have hne : m.name ≠ n.name := fun e => hnd.1 (mem_map.mpr ⟨m, hm, e⟩)
      rw [beq_false_of_ne hne]
      exact ih hnd.2 hm

theorem inDegree_eq (hm : m ∈ models) :
    inDegree models m.name = m.requirements.length := by
  unfold inDegree
  rw [lookup_graph hnd hm]
  rfl

theorem nodup_roots :
    (roots models).Nodup := by
  unfold roots
  rw [nodup_reverse]
  exact ((perm_insertionSort _ _).nodup_iff.mpr hnd).filter _

variable (honce : ∀ m ∈ models, m.requirements.Nodup)
  (href : ∀ m ∈ models, ∀ dep ∈ m.requirements, Provided models m dep)
include honce href

/-- The entries, as nodes. -/
theorem graph_closed :
    Kahn.Closed (graph models) where
  names := by
    rw [graph_names]
    exact hnd
  once := by
    intro n hn
    obtain ⟨m, hm, rfl⟩ := mem_map.mp hn
    exact honce m hm
  listed := by
    intro n hn dep hdep
    obtain ⟨m, hm, rfl⟩ := mem_map.mp hn
    obtain ⟨t, ht, e, -⟩ := href m hm dep hdep
    rw [graph_names]
    exact mem_map.mpr ⟨t, ht, e⟩

/-- **The cycle check** accepts exactly the entries that can be ranked above what they require; and
    no counter is lowered below zero. -/
theorem checkCycles_ok :
    (checkCycles models = .ok () ↔ Kahn.Ranked (graph models)) ∧
      checkCycles models ≠ .error .overflow := by
  have hdeg : ∀ n ∈ graph models, inDegree models n.1 = n.2.length := by
    intro n hn
    obtain ⟨m, hm, rfl⟩ := mem_map.mp hn
    exact inDegree_eq hnd hm
  have hroots : ∀ a, a ∈ roots models ↔ ∃ n ∈ graph models, n.1 = a ∧ inDegree models a = 0 := by
    intro a
    rw [mem_roots]
    simp [graph]
  obtain ⟨visited, hv, hiff⟩ :=
    Kahn.visit_all_iff (graph_closed hnd honce href) hdeg (nodup_roots hnd) hroots
  have hlen : (graph models).length = models.length := length_map ..
  unfold checkCycles
  rw [hv]
  refine ⟨?_, ?_⟩
  · simp only [require_ok, beq_iff_eq]
    rw [← hlen]
    exact hiff
  · simp only [require]
    split <;> simp

end Names

/-- **The cycle check is exact.** Once the entries and what they require have passed, it reports an
    error exactly if an entry requires itself, directly or through others, and no counter is lowered
    below zero. -/
theorem checkCycles_exact {index : Index}
    (hmodels : checkModels policy index.channel .nothing index.models = .ok ())
    (href : checkReferences index.models index.models = .ok ()) :
    (checkCycles index.models = .error .cycle ↔
      ∃ name, Relation.TransGen (Kahn.Requires (graph index.models)) name name) ∧
    (∀ e, checkCycles index.models = .error e → e = .cycle) ∧
      Kahn.visit (graph index.models) (inDegree index.models) (roots index.models) ≠ none := by
  obtain ⟨hentries, hnames, -⟩ := checkModels_ok.mp hmodels
  have honce : ∀ m ∈ index.models, m.requirements.Nodup := fun m hm => (hentries m hm).nodup
  have hprov := (checkReferences_ok hnames).mp href
  obtain ⟨hok, hover⟩ := checkCycles_ok hnames honce hprov
  rw [Kahn.ranked_iff (graph_closed hnames honce hprov), ← not_exists] at hok
  have herr : ∀ e, checkCycles index.models = .error e → e = .cycle := by
    intro e he
    unfold checkCycles at he hover
    split at he
    · rename_i hnone
      rw [hnone] at hover
      exact absurd rfl hover
    · unfold require at he
      split at he <;> cases he
      rfl
  refine ⟨⟨fun he => ?_, fun hcycle => ?_⟩, herr, fun hnone => ?_⟩
  · by_contra hno
    rw [hok.mpr hno] at he
    cases he
  · cases he : checkCycles index.models with
    | ok => exact absurd hcycle (hok.mp he)
    | error e => rw [herr e he]
  · refine hover ?_
    unfold checkCycles
    rw [hnone]

/-! ## 6. The index as a whole -/

/-- What the validator wants of an index. -/
structure WellFormed (policy : EntitlementIdPolicy) (index : Index) : Prop where
  count : index.models.length ≤ maxModels
  channel : checkChannel index = .ok ()
  entries : ∀ m ∈ index.models, EntryOk policy index.channel m
  names : (index.models.map IndexModel.name).Nodup
  terms : TermsAgree index.models
  provided : ∀ m ∈ index.models, ∀ dep ∈ m.requirements, Provided index.models m dep
  viewer : checkViewer index = .ok ()
  ranked : Kahn.Ranked (graph index.models)

variable {index : Index}

/-- **The validator accepts exactly the well-formed indexes.** -/
theorem validateWith_ok_iff :
    validateWith policy index = .ok () ↔ WellFormed policy index := by
  have hmodels : checkModels policy index.channel .nothing index.models = .ok () ↔
      (∀ m ∈ index.models, EntryOk policy index.channel m) ∧
      (index.models.map IndexModel.name).Nodup ∧ TermsAgree index.models := by
    rw [checkModels_ok]
    simp [Seen.nothing, NotedOk]
  unfold validateWith
  simp only [check_ok, require_ok, decide_eq_true_eq, hmodels]
  constructor
  · rintro ⟨hcount, hchannel, ⟨hentries, hnames, hterms⟩, href, hviewer, hcycles⟩
    rw [checkReferences_ok hnames] at href
    have hkahn := checkCycles_ok hnames (fun m hm => (hentries m hm).nodup) href
    exact ⟨hcount, hchannel, hentries, hnames, hterms, href, hviewer, hkahn.1.mp hcycles⟩
  · intro h
    have hkahn := checkCycles_ok h.names (fun m hm => (h.entries m hm).nodup) h.provided
    exact ⟨h.count, h.channel, ⟨h.entries, h.names, h.terms⟩,
      (checkReferences_ok h.names).mpr h.provided, h.viewer, hkahn.1.mpr h.ranked⟩

/-! ## 7. What a caller may see -/

/-- The entry is for callers who hold the entitlements `held`. -/
def IndexModel.visibleTo (held : List Text) (m : IndexModel) : Bool :=
  m.requiredEntitlements.all fun r => held.contains r

variable {held : List Text}

theorem IndexModel.visibleTo_iff :
    m.visibleTo held = true ↔ ∀ r ∈ m.requiredEntitlements, r ∈ held := by
  simp [IndexModel.visibleTo]

/-- The gateway's filter: only the entries a caller may see are kept. -/
def Index.visible (held : List Text) (index : Index) : Index :=
  { index with models := index.models.filter (IndexModel.visibleTo held) }

/-- What a visible entry requires is visible. -/
theorem Provided.visible (h : Provided models m dep) (hm : m.visibleTo held = true) :
    Provided (models.filter (IndexModel.visibleTo held)) m dep := by
  obtain ⟨t, ht, hname, hpub, hsub⟩ := h
  have hvis : t.visibleTo held = true :=
    IndexModel.visibleTo_iff.mpr fun r hr => IndexModel.visibleTo_iff.mp hm r (hsub r hr)
  exact ⟨t, mem_filter.mpr ⟨ht, hvis⟩, hname, hpub, hsub⟩

/-- **What a caller sees of an index the gateway admits is well formed for clients**, if the
    entitlements held are known ones. -/
theorem WellFormed.visible
    (h : WellFormed .acceptUnknown index) (hheld : ∀ e ∈ held, e ∈ knownEntitlements) :
    WellFormed .strict (index.visible held) where
  count := Nat.le_trans (length_filter_le ..) h.count
  channel := h.channel
  entries := by
    intro m hm
    obtain ⟨hm, hvis⟩ := mem_filter.mp hm
    exact (h.entries m hm).strict fun i hi => hheld i (IndexModel.visibleTo_iff.mp hvis i hi)
  names := h.names.sublist (filter_sublist.map _)
  terms := h.terms.sublist filter_sublist
  provided := by
    intro m hm dep hdep
    obtain ⟨hm, hvis⟩ := mem_filter.mp hm
    exact (h.provided m hm dep hdep).visible hvis
  viewer := h.viewer
  ranked := by
    refine h.ranked.subset fun n hn => ?_
    obtain ⟨m, hm, rfl⟩ := mem_map.mp hn
    exact mem_map_of_mem (mem_filter.mp hm).1

/-- **Filtering keeps an index valid.** If the gateway's mode accepts an index, the strict mode
    accepts what remains for a caller with entitlements `held`, whichever known ones they are; and
    what a kept entry requires is kept. -/
theorem filtered_valid (hheld : ∀ e ∈ held, e ∈ knownEntitlements)
    (hbase : validateGatewayBase index = .ok ()) :
    validate (index.visible held) = .ok () ∧
      ∀ m ∈ (index.visible held).models, ∀ dep ∈ m.requirements,
        ∃ t ∈ (index.visible held).models, t.name = dep := by
  have hW := (validateWith_ok_iff.mp hbase).visible hheld
  refine ⟨validateWith_ok_iff.mpr hW, fun m hm dep hdep => ?_⟩
  obtain ⟨t, ht, hname, -⟩ := hW.provided m hm dep hdep
  exact ⟨t, ht, hname⟩

/-! ### An index with an entitlement this build does not know -/

def sampleModel (name : Text) (requires entitlements : List Text) : IndexModel where
  name := name
  access := "private".toList
  modelType := "embed".toList
  backend := "onnx".toList
  sourceDim := some 8
  targetDim := none
  sequenceLen := none
  license := some "apache-2.0".toList
  licenseVersion := none
  licenseUrl := none
  licenseAcceptance := none
  dependencies := requires
  postvecRequires := []
  minPostvecVersion := some "0.2".toList
  withdrawn := false
  revision := none
  requiredEntitlements := entitlements
  archive := ⟨"sha256:".toList ++ List.replicate 64 'a', 100, 90, ["https://hub/a.tar.zst".toList]⟩

/-- `big` needs an entitlement a newer publisher introduced, and requires `base`. -/
def sampleIndex : Index where
  channel := "private".toList
  authenticated := true
  models := [sampleModel "big".toList ["base".toList] ["later".toList, "postvec-catalog".toList],
    sampleModel "base".toList [] ["postvec-catalog".toList], sampleModel "free".toList [] []]
  viewer := none

theorem sampleIndex_filtered :
    validateGatewayBase sampleIndex = .ok () ∧ validate sampleIndex ≠ .ok () ∧
      (sampleIndex.visible knownEntitlements).models.map IndexModel.name =
        ["base".toList, "free".toList] ∧
      validate (sampleIndex.visible knownEntitlements) = .ok () := by
  have hbase : validateGatewayBase sampleIndex = .ok () := by decide +kernel
  exact ⟨hbase, by decide +kernel, by decide +kernel,
    (filtered_valid (fun _ h => h) hbase).1⟩

/-- Two entries that require each other pass every check before the last one. -/
def crossedIndex : Index :=
  { sampleIndex with models := [sampleModel "a".toList ["b".toList] [],
    sampleModel "b".toList ["a".toList] []] }

theorem crossedIndex_cycle :
    checkModels .strict crossedIndex.channel .nothing crossedIndex.models = .ok () ∧
      checkReferences crossedIndex.models crossedIndex.models = .ok () ∧
      ∃ name, Relation.TransGen (Kahn.Requires (graph crossedIndex.models)) name name := by
  have hmodels : checkModels .strict crossedIndex.channel .nothing crossedIndex.models =
      .ok () := by
    decide +kernel
  have href : checkReferences crossedIndex.models crossedIndex.models = .ok () := by decide +kernel
  exact ⟨hmodels, href, (checkCycles_exact hmodels href).1.mp (by decide +kernel)⟩

/-! ## 8. Parts of an index -/

/-- **Any part of a valid index, in any order,** is accepted exactly if it has what it requires. -/
theorem part_valid_iff (hvalid : validateWith policy index = .ok ()) {ms : List IndexModel}
    (hsub : ms <+~ index.models) : validateWith policy { index with models := ms } = .ok () ↔
      ∀ m ∈ ms, ∀ dep ∈ m.requirements, ∃ t ∈ ms, t.name = dep := by
  have hW := validateWith_ok_iff.mp hvalid
  obtain ⟨l, hperm, hl⟩ := hsub
  have hin : ∀ m ∈ ms, m ∈ index.models := fun m hm => hl.subset (hperm.mem_iff.mpr hm)
  rw [validateWith_ok_iff]
  constructor
  · intro h m hm dep hdep
    obtain ⟨t, ht, hname, -⟩ := h.provided m hm dep hdep
    exact ⟨t, ht, hname⟩
  · intro hclosed
    refine ⟨(hperm.length_eq ▸ hl.length_le).trans hW.count, hW.channel,
      fun m hm => hW.entries m (hin m hm), (hperm.map _).nodup_iff.mp (hW.names.sublist (hl.map _)),
      (hW.terms.sublist hl).perm hperm ?_, fun m hm dep hdep => ?_, hW.viewer,
      hW.ranked.subset fun n hn => ?_⟩
    · exact fun h doc hn hm => (h doc hm hn).symm
    · obtain ⟨t, ht, hname⟩ := hclosed m hm dep hdep
      obtain ⟨t', ht', hname', hrest⟩ := hW.provided m (hin m hm) dep hdep
      cases inj_on_of_nodup_map hW.names (hin t ht) ht' (hname.trans hname'.symm)
      exact ⟨t, ht, hname, hrest⟩
    · obtain ⟨m, hm, rfl⟩ := mem_map.mp hn
      exact mem_map_of_mem (hin m hm)

/-- `base` and `big`, which requires it. -/
theorem sampleIndex_part :
    validateWith .acceptUnknown { sampleIndex with models := (sampleIndex.models.take 2).reverse } =
      .ok () :=
  (part_valid_iff (by decide +kernel)
    ((reverse_perm _).subperm.trans (take_sublist 2 _).subperm)).mpr (by decide +kernel)

end Postvec.Registry
