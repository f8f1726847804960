import Mathlib.Data.Char
import Mathlib.Data.List.Lex
import Mathlib.Data.List.MinMax
import Mathlib.Data.Prod.Lex
import Postvec.Managed.Inference

/-!
# The fleet a leader holds, and the routes it takes from it

`constrain_models` as a whole: `retain_space_dims` keeps the rows of a space that have its width,
which is the one known or else the one of the first row that claims any (`widthOf`). `Constrained`
says what remains of the fleet.

The two-tier resolution is written twice: as SQL over the cache (`resolveEmbedRouteFor`) and as
iterators over the nodes (`Client.routeByKey`). The direct tiers agree: both take the least row of
one order. In the bridge tier the SQL takes the first converter and the first executor by name, the
client the first of its node's list (`sameRoute_iff`).
-/

namespace Postvec.Inference

open Option
open List hiding beq_eq_decide
open Discovery (Known retainSpaceDims widthOf conflicts retainSpaceDims_eq ModelRow)
open Discovery renaming ModelInfo → Info

variable {known : Known} {rows models : List Info} {m : Info}

/-! ## 1. One model of a name -/

theorem sorted_insertByName : ∀ {models : List Info},
    models.Pairwise (fun a b => a.name < b.name) →
      (insertByName m models).Pairwise (fun a b => a.name < b.name)
  | [], _ => pairwise_singleton _ _
  | x :: xs, h => by
    obtain ⟨hx, hxs⟩ := pairwise_cons.mp h
    rw [insertByName]
    split
    · rename_i e
      exact pairwise_cons.mpr ⟨fun y hy => e ▸ hx y hy, hxs⟩
    · rename_i hne
      split
      · rename_i hlt
        refine pairwise_cons.mpr ⟨fun y hy => ?_, h⟩
        rcases mem_cons.mp hy with rfl | hy
        · exact hlt
        · exact lt_trans hlt (hx y hy)
      · rename_i hnlt
        have hxm : x.name < m.name := lt_of_le_of_ne (not_lt.mp hnlt) (Ne.symm hne)
        refine pairwise_cons.mpr ⟨fun y hy => ?_, sorted_insertByName hxs⟩
        rcases mem_insertByName hy with rfl | hy
        · exact hxm
        · exact hx y hy

theorem nodup_unique (models : List Info) :
    ((unique models).map (·.name)).Nodup := by
  have hsorted : (unique models).Pairwise (fun a b => a.name < b.name) := by
    induction models with
    | nil => exact .nil
    | cons m ms ih => exact sorted_insertByName ih
  exact pairwise_map.mpr (hsorted.imp fun h => ne_of_lt h)

/-! ## 2. The constrained fleet -/

/-- The names `constrain_models` reports: of the rows that were dropped, those no row was kept
    of. -/
def rejectedNames (c : Client) (known : Known) : List Text :=
  ((retainSpaceDims known c.models).2.map (·.model.name)).filter fun n =>
    !((constrainModels c known).models.any fun m => decide (m.name = n))

/-- What remains of the rows of some nodes, and what is reported. -/
structure Constrained (nodes : List Node) (known : Known) (c : Client) (rejected : List Text) :
    Prop where
  once : (c.models.map (·.name)).Nodup
  widths : ∀ m ∈ c.models, ∀ m' ∈ c.models, m.space = m'.space →
    ∀ d ∈ m.claims, ∀ d' ∈ m'.claims, d = d'
  database : ∀ m ∈ c.models, ∀ d ∈ m.claims, ∀ w ∈ known.lookup m.space, w.1 = d
  agree : ∀ n ∈ c.nodes, ∀ r ∈ n.2, ∃ m ∈ c.models, m.name = r.name ∧ sameSpace m r = true
  /-- of each name, the first row in node order that does not conflict -/
  first : ∀ n, c.models.find? (fun m => decide (m.name = n)) =
    ((nodes.flatMap Prod.snd).filter fun m => !conflicts known (nodes.flatMap Prod.snd) m).find?
      fun m => decide (m.name = n)
  reported : ∀ n, n ∈ rejected ↔
    (∃ r ∈ nodes.flatMap Prod.snd, r.name = n ∧ conflicts known (nodes.flatMap Prod.snd) r = true) ∧
      ∀ r ∈ nodes.flatMap Prod.snd, r.name = n → conflicts known (nodes.flatMap Prod.snd) r = true

/-- What is kept claims the width of its space. -/
theorem widthOf_of_kept (hm : m ∈ rows.filter fun m => !conflicts known rows m) {d : UInt32}
    (hd : d ∈ m.claims) : widthOf known rows m.space = some d := by
  have hno := (mem_filter.mp hm).2
  have hd' : m.claims = some d := hd
  simpa [conflicts, hd'] using hno

/-- **A constrained fleet is consistent in its widths.** -/
theorem constrainModels_constrained (nodes : List Node) (known : Known) :
    Constrained nodes known (constrainModels ⟨nodes, nodes.flatMap Prod.snd⟩ known)
      (rejectedNames ⟨nodes, nodes.flatMap Prod.snd⟩ known) := by
  set rows := nodes.flatMap Prod.snd
  obtain ⟨hkeep, hdrop⟩ := retainSpaceDims_eq known rows
  have hmodels : (constrainModels ⟨nodes, rows⟩ known).models =
      unique (rows.filter fun m => !conflicts known rows m) := by
    rw [constrainModels, hkeep]
  have hwidth : ∀ m ∈ (constrainModels ⟨nodes, rows⟩ known).models, ∀ d ∈ m.claims,
      widthOf known rows m.space = some d := by
    intro m hm d hd
    rw [hmodels] at hm
    exact widthOf_of_kept (mem_of_mem_unique hm) hd
  refine ⟨?_, fun m hm m' hm' hs d hd d' hd' => ?_, fun m hm d hd w hw => ?_, fun n hn r hr => ?_,
    fun n => ?_, fun n => ?_⟩
  · rw [hmodels]
    exact nodup_unique _
  · have h := hwidth m hm d hd
    rw [hs, hwidth m' hm' d' hd'] at h
    exact (Option.some.inj h).symm
  · have h := hwidth m hm d hd
    have hw' : known.lookup m.space = some w := hw
    simpa [widthOf, hw'] using h
  · obtain ⟨k, -, rfl⟩ := List.mem_map.mp hn
    have hsame := (mem_filter.mp hr).2
    cases hm : (unique (retainSpaceDims known rows).1).find?
        (fun x => decide (x.name = r.name)) with
    | none =>
      rw [hm] at hsame
      cases hsame
    | some m =>
      rw [hm] at hsame
      exact ⟨m, mem_of_find?_eq_some hm, by simpa using List.find?_some hm, hsame⟩
  · rw [hmodels]
    exact find?_unique n _
  · have hnames : (retainSpaceDims known rows).2.map (·.model.name) =
        (rows.filter (conflicts known rows)).map (·.name) := by
      rw [← hdrop, List.map_map]
      rfl
    rw [rejectedNames, mem_filter, hnames, hmodels, List.mem_map]
    refine and_congr ⟨?_, ?_⟩ ?_
    · rintro ⟨r, hr, e⟩
      obtain ⟨hr, hc⟩ := mem_filter.mp hr
      exact ⟨r, hr, e, hc⟩
    · rintro ⟨r, hr, e, hc⟩
      exact ⟨r, mem_filter.mpr ⟨hr, hc⟩, e⟩
    · rw [Bool.not_eq_true', List.any_eq_false]
      constructor
      · intro hnone r hr e
        by_contra hno
        have hkept : r ∈ rows.filter fun m =>
            !conflicts known rows m := mem_filter.mpr ⟨hr, by simpa using hno⟩
        obtain ⟨a, ha, hname⟩ := name_unique hkept
        exact hnone a ha (by simp [hname, e])
      · intro hall a ha hname
        obtain ⟨hrow, hno⟩ := mem_filter.mp (mem_of_mem_unique ha)
        rw [hall a hrow (by simpa using hname)] at hno
        cases hno

/-! ## 3. The order of routes, as SQL -/

/-- The two fields of the error. -/
structure NoEmbedPath where
  model : Text
  detail : Text
deriving DecidableEq

inductive EmbedResolution where
  | direct (name : Text)
  | bridge (executor via target : Text)
deriving DecidableEq

def EmbedResolution.intoCall : EmbedResolution → Text × EmbedRoute
  | .direct name => (name, ⟨none, none⟩)
  | .bridge executor via target => (executor, ⟨some via, some target⟩)

/-- The row is a local embed model of the space. -/
def embeds (source : Text) (e : ModelRow) : Bool :=
  decide (e.modelType = Discovery.embed) && decide (e.space = source) && e.extra.provider.isNone

/-- The row is a local converter into the space whose source is embeddable. -/
def usable (rows : List ModelRow) (space : Text) (c : ModelRow) : Bool :=
  decide (c.modelType = convert) && decide (c.targetModel = some space) &&
    c.extra.provider.isNone &&
    c.sourceModel.any fun source => rows.any (embeds source)

def isExecutor (m : ModelRow) : Bool := decide (m.modelType = embedBridge)

/-- A usable converter of the list. -/
def converts (listed : List Info) (space : Text) (c : Info) : Bool :=
  usable (listed.map Info.row) space c.row

def executes (b : Info) : Bool := isExecutor b.row

section Sql

variable (collate : Text → Text → Ordering)

/-- `ORDER BY name LIMIT 1` -/
def firstNamed : List ModelRow → Option ModelRow
  | [] => none
  | x :: xs =>
    match firstNamed xs with
    | none => some x
    | some y => if collate y.name x.name = .lt then some y else some x

/-- Which of the failures it is: a converter without its source, a provider's, or none at all. -/
def noConverterDetail (rows : List ModelRow) (space : Text) : Text :=
  let into := rows.filter fun c => decide (c.modelType = convert) &&
    decide (c.targetModel = some space)
  match firstNamed collate (into.filter (·.extra.provider.isNone)) with
  | some c =>
    "no embed model matches; converter ".toList ++ c.name ++ " (source ".toList ++
      c.sourceModel.getD "NULL".toList ++
      ") targets it but its source model is not itself embeddable".toList
  | none =>
    match firstNamed collate (into.filter (·.extra.provider.isSome)) with
    | some c =>
      "no embed model matches; provider-backed converter ".toList ++ c.name ++
        " targets it, but hosted converters serve postvec.migrate()/convert() only ".toList ++
          "— an embed bridge runs inside the engine".toList
    | none => "no embed model matches and no converter targets it".toList

/-- `resolve_embed_route_for` over the rows of `postvec.models`; `debug` is the `{:?}` of a
    string. -/
def resolveEmbedRouteFor (debug : Text → Text) (rows : List ModelRow) (model : Text)
    (spaceHint : Option Text) : Except NoEmbedPath EmbedResolution :=
  match Discovery.route collate rows model spaceHint with
  | some r => .ok (.direct r.route)
  | none =>
    let space := spaceHint.getD model
    match (firstNamed collate (rows.filter (usable rows space))).bind (·.sourceModel) with
    | none => .error ⟨model, noConverterDetail collate rows space⟩
    | some via =>
      match firstNamed collate (rows.filter isExecutor) with
      | none => .error ⟨model, "a converter from ".toList ++ debug via ++
          " exists but no embed-bridge executor is available".toList⟩
      | some b => .ok (.bridge b.name via space)

end Sql

/-! ## 4. The order of routes, as iterators -/

/-- `embed_priority`; `json` is the JSON priority where `as_i64` reads it. -/
def embedPriority (json : Option Int) (provider : Option Text) : Nat :=
  ((json.filter fun p => 1 ≤ p ∧ p ≤ 65535).map Int.toNat).getD
    (if provider.isNone then 100 else 200)

/-- The view's reading of an integer: the text of its digits must match `^[0-9]{1,5}$`. -/
def fiveDigits (json : Option Int) : Option Nat :=
  (json.filter fun p => 0 ≤ p ∧ p < 100000).map Int.toNat

/-- The key of `min_by_key` in `Client::route`. -/
def routeKey (name : Text) (x : Discovery.Route) : Bool ×ₗ Bool ×ₗ ℕ ×ₗ Text :=
  toLex (decide (x.route ≠ name), toLex (decide (x.space ≠ name), toLex (x.priority, x.route)))

/-- What the key reads of a model. -/
def keyed (json : Info → Option Int) (m : Info) : Discovery.Route :=
  ⟨m.space, m.name, m.row.targetDim, embedPriority (json m) m.extra.provider⟩

/-- The filter of `Client::route`. -/
def candidate (name : Text) (space : Option Text) (m : Info) : Bool :=
  decide (m.modelType = Discovery.embed) &&
    (decide (m.name = name) || decide (m.space = name) || decide (space = some m.space))

/-- `Client::route` -/
def Client.routeByKey (json : Info → Option Int) (c : Client) (name : Text)
    (space : Option Text) : Except PvError (Text × EmbedRoute) :=
  match (c.models.filter (candidate name space)).argmin fun m => routeKey name (keyed json m) with
  | some m => .ok (m.name, ⟨none, none⟩)
  | none =>
    let name := space.getD name
    match c.nodes.findSome? fun n => bridgeOf name n.2 with
    | some r => .ok r
    | none => .error (.unknownModel name)

/-! ## 5. The direct tier -/

/-- Both readings give one priority. -/
theorem rank_eq_embedPriority {x : Discovery.Extra} {json : Option Int}
    (h : x.priority = fiveDigits json) : x.rank = embedPriority json x.provider := by
  unfold Discovery.Extra.rank embedPriority
  rw [h]
  cases json with
  | none => rfl
  | some p =>
    by_cases hp : 1 ≤ p ∧ p ≤ 65535
    · have hd : 0 ≤ p ∧ p < 100000 := by omega
      have hn : 1 ≤ p.toNat ∧ p.toNat ≤ 65535 := by omega
      simp [fiveDigits, Option.filter, hp, hd, hn]
    · -- out of range: the number may still have five digits
      have hnone : (some p).filter (fun p => decide (1 ≤ p ∧ p ≤ 65535)) = none := by
        rw [filter_some, decide_eq_false hp]
        rfl
      rw [hnone]
      by_cases hd : 0 ≤ p ∧ p < 100000
      · have hn : ¬ (1 ≤ p.toNat ∧ p.toNat ≤ 65535) := by omega
        have hsome : fiveDigits (some p) = some p.toNat := by simp [fiveDigits, hd]
        simp only [hsome, if_neg hn, map_none, getD_none]
      · simp [fiveDigits, Option.filter, hd]

theorem byText_eq_lt {a b : Text} : byText a b = .lt ↔ a < b := by
  unfold byText
  split
  · simp [*]
  · split <;> simp [*]

/-- The `ORDER BY` of `_route` is the order of the keys. -/
theorem order_eq_lt {name : Text} (x y : Discovery.Route) :
    Discovery.order byText name x y = .lt ↔ routeKey name x < routeKey name y := by
  have hbool : ∀ a b : Bool, (compare b a = .lt ↔ (!a) < (!b)) ∧
      (compare b a = .eq ↔ (!a) = !b) := by
    decide
  unfold Discovery.order routeKey
  simp only [Prod.Lex.toLex_lt_toLex, Ordering.then_eq_lt, hbool, Nat.compare_eq_lt,
    Nat.compare_eq_eq, byText_eq_lt, beq_eq_decide, ne_eq, decide_not]

section First

variable {α β : Type*} [LinearOrder β] {k : α → β} {before : α → α → Ordering}
  {f : List α → Option α}

/-- `ORDER BY … LIMIT 1`: what is taken has the least key. -/
structure TakesLeast (k : α → β) (f : List α → Option α) : Prop where
  none : ∀ xs, f xs = none → xs = []
  mem : ∀ {xs x}, f xs = some x → x ∈ xs
  le : ∀ {xs x}, f xs = some x → ∀ y ∈ xs, k x ≤ k y

theorem takesLeast (hlt : ∀ x y, before x y = .lt ↔ k x < k y) (hnil : f [] = none)
    (hcons : ∀ x xs, f (x :: xs) =
      (f xs).elim (some x) fun y => if before y x = .lt then some y else some x) :
    TakesLeast k f := by
  have h : f = List.argmin k := by
    funext xs
    induction xs with
    | nil => exact hnil
    | cons x xs ih =>
      rw [hcons, ih, argmin_cons]
      cases xs.argmin k with
      | none => rfl
      | some y => exact if_congr (hlt y x) rfl rfl
  subst h
  exact ⟨fun _ => argmin_eq_none.mp, argmin_mem, fun hx y hy => le_of_mem_argmin hy hx⟩

end First

theorem takesLeast_first (name : Text) :
    TakesLeast (routeKey name) (Discovery.first (Discovery.order byText name)) := by
  refine takesLeast order_eq_lt rfl fun x xs => ?_
  rw [Discovery.first]
  cases Discovery.first _ xs with
  | none | some => rfl

section Direct

variable {json : Info → Option Int} {cache : List ModelRow} {name : Text}
  {space : Option Text}

theorem keyed_eq (h : m.extra.priority = fiveDigits (json m)) : keyed json m = m.row.toRoute := by
  rw [keyed, ← rank_eq_embedPriority h]
  rfl

/-- The rows `_route` chooses from are those of the client's candidates. -/
theorem mem_eligible (hcache : ∀ r, r ∈ cache ↔ ∃ m ∈ models, m.row = r) {x : Discovery.Route} :
    x ∈ (Discovery.routes cache).filter (Discovery.eligible name space) ↔
      ∃ m ∈ models.filter (candidate name space), m.row.toRoute = x := by
  simp only [mem_filter, Discovery.routes, List.mem_map, hcache, candidate, Bool.and_eq_true]
  constructor
  · rintro ⟨⟨_, ⟨⟨m, hm, rfl⟩, ht⟩, rfl⟩, he⟩
    exact ⟨m, ⟨hm, ht, he⟩, rfl⟩
  · rintro ⟨m, ⟨hm, ht, he⟩, rfl⟩
    exact ⟨⟨m.row, ⟨⟨m, hm, rfl⟩, ht⟩, rfl⟩, he⟩

variable (name space) in
/-- **The direct tiers agree.** -/
theorem route_eq_argmin (hcache : ∀ r, r ∈ cache ↔ ∃ m ∈ models, m.row = r)
    (hread : ∀ m ∈ models, m.extra.priority = fiveDigits (json m)) :
    (Discovery.route byText cache name space).map (·.route) =
      ((models.filter (candidate name space)).argmin fun m => routeKey name (keyed json m)).map
        (·.name) := by
  have hkey : ∀ m ∈ models.filter (candidate name space), keyed json m = m.row.toRoute :=
    fun m hm => keyed_eq (hread m (mem_filter.mp hm).1)
  rw [Discovery.route]
  cases hx : Discovery.first (Discovery.order byText name)
      ((Discovery.routes cache).filter (Discovery.eligible name space)) with
  | none =>
    have hempty : models.filter (candidate name space) = [] := by
      refine eq_nil_iff_forall_not_mem.mpr fun m hm => ?_
      have hrow := (mem_eligible hcache).mpr ⟨m, hm, rfl⟩
      rw [Discovery.first_eq_none hx] at hrow
      cases hrow
    rw [hempty]
    rfl
  | some x =>
    obtain ⟨m, hm, rfl⟩ := (mem_eligible hcache).mp (Discovery.mem_of_first hx)
    cases ha : (models.filter (candidate name space)).argmin fun m =>
        routeKey name (keyed json m) with
    | none =>
      rw [argmin_eq_none.mp ha] at hm
      cases hm
    | some a =>
      have ha' := argmin_mem ha
      -- each is at most the other, and the name is part of the key
      have hle : routeKey name a.row.toRoute ≤ routeKey name m.row.toRoute := by
        have := le_of_mem_argmin hm ha
        rwa [hkey a ha', hkey m hm] at this
      have hge := (takesLeast_first name).le hx _ ((mem_eligible hcache).mpr ⟨a, ha', rfl⟩)
      have heq := congrArg (fun k => (ofLex (ofLex (ofLex k).2).2).2) (le_antisymm hge hle)
      exact congrArg some heq

/-- `Client.route`, which borrows the order of `_route`, is `Client::route`. -/
theorem Client.route_eq_routeByKey {c : Client}
    (hread : ∀ m ∈ c.models, m.extra.priority = fiveDigits (json m)) :
    c.route name space = c.routeByKey json name space := by
  have hdirect := route_eq_argmin name space (fun r => List.mem_map) hread
  unfold Client.route Client.routeByKey
  cases ha : (c.models.filter (candidate name space)).argmin fun m =>
      routeKey name (keyed json m) with
  | none =>
    cases hr : Discovery.route byText (c.models.map Info.row) name space with
    | none => rfl
    | some r =>
      rw [ha, hr] at hdirect
      cases hdirect
  | some m =>
    rw [ha, map_some, map_eq_some_iff] at hdirect
    obtain ⟨r, hr, hname⟩ := hdirect
    rw [hr]
    exact congrArg (fun n => Except.ok (n, (⟨none, none⟩ : EmbedRoute))) hname

end Direct

/-! ## 6. The bridge tier -/

theorem takesLeast_firstNamed : TakesLeast ModelRow.name (firstNamed byText) := by
  refine takesLeast (fun _ _ => byText_eq_lt) rfl fun x xs => ?_
  rw [firstNamed]
  cases firstNamed _ xs with
  | none | some => rfl

theorem findSome?_guarded {α β : Type*} {p : α → Bool} {f g : α → Option β}
    (hyes : ∀ a, p a = true → f a = g a ∧ (g a).isSome = true)
    (hno : ∀ a, p a = false → f a = none) :
    ∀ l : List α, l.findSome? f = (l.find? p).bind g
  | [] => rfl
  | a :: l => by
    cases hp : p a with
    | false => simp [hno a hp, hp, findSome?_guarded hyes hno l]
    | true =>
      obtain ⟨hfg, hsome⟩ := hyes a hp
      obtain ⟨b, hb⟩ := isSome_iff_exists.mp hsome
      simp [hp, hfg, hb]

/-- The client takes the first usable converter and the first executor that the node lists. -/
theorem bridgeOf_eq (space : Text) (models : List Info) :
    bridgeOf space models =
      (models.find? (converts models space)).bind fun c =>
        c.sourceModel.bind fun via => (models.find? executes).map fun b =>
          (b.name, ⟨some via, some space⟩) := by
  have hany : ∀ source, (models.any fun m => decide (m.modelType = Discovery.embed) &&
      decide (m.space = source) && m.extra.provider.isNone) =
        (models.map Info.row).any (embeds source) := by
    intro source
    rw [List.any_map]
    rfl
  have husable : ∀ c : Info, converts models space c =
      (isConverter space c && c.sourceModel.any fun source =>
        (models.map Info.row).any (embeds source)) := fun c => rfl
  have hexec : models.find? executes = models.find? (·.modelType = embedBridge) := rfl
  unfold bridgeOf
  rw [hexec]
  simp only [hany]
  cases models.find? (·.modelType = embedBridge) with
  | none =>
    -- no executor: no converter is of use
    simp only [map_none, ite_self, bind_fun_none]
    refine List.findSome?_eq_none_iff.mpr fun c _ => ?_
    split
    · split <;> rfl
    · rfl
  | some b =>
    refine findSome?_guarded (fun c hc => ?_) (fun c hc => ?_) models
    · rw [husable, Bool.and_eq_true] at hc
      cases hs : c.sourceModel with
      | none =>
        rw [hs] at hc
        cases hc.2
      | some source =>
        rw [hs] at hc
        have hin : (models.map Info.row).any (embeds source) = true := hc.2
        simp [hc.1, hin]
    · rw [husable] at hc
      cases hconv : isConverter space c with
      | false => rfl
      | true =>
        cases hs : c.sourceModel with
        | none => rfl
        | some source =>
          rw [hconv, hs] at hc
          have hin : (models.map Info.row).any (embeds source) = false := hc
          simp [hin]

/-- One inference node. What the extension has cached, and what the client holds, are the models
    that the node lists. -/
structure OneNode where
  listed : List Info
  names : (listed.map (·.name)).Nodup
  json : Info → Option Int
  read : ∀ m ∈ listed, m.extra.priority = fiveDigits (json m)
  cache : List ModelRow
  cached : cache.Perm (listed.map Info.row)
  client : Client
  node : client.nodes.map Prod.snd = [listed]
  merged : client.models.Perm listed

/-- A model is served directly; or there is no bridge; or the first usable converter of the list has
    the source of the first by name, and the first executor of the list is the first by name. -/
def ListedByName (listed : List Info) (name : Text) (space : Option Text) : Prop :=
  let usables := listed.filter (converts listed (space.getD name))
  (∃ m ∈ listed, candidate name space m = true) ∨
    ∀ c ∈ listed.find? (converts listed (space.getD name)), ∀ b ∈ listed.find? executes,
      (∃ c' ∈ usables, c'.sourceModel = c.sourceModel ∧ ∀ x ∈ usables, c'.name ≤ x.name) ∧
        ∀ x ∈ listed.filter executes, b.name ≤ x.name

namespace OneNode

variable (d : OneNode) {P : ModelRow → Bool} {c : Info} {name : Text} {space : Option Text}

theorem mem_cache (r : ModelRow) : r ∈ d.cache ↔ ∃ m ∈ d.listed, m.row = r := by
  rw [d.cached.mem_iff, List.mem_map]

/-- The usable rows do not depend on the order of the cache. -/
theorem usable_cache (space : Text) :
    usable d.cache space = usable (d.listed.map Info.row) space := by
  have hany : ∀ source, d.cache.any (embeds source) =
      (d.listed.map Info.row).any (embeds source) := by
    intro source
    rw [Bool.eq_iff_iff, List.any_eq_true, List.any_eq_true]
    exact exists_congr fun r => and_congr_left fun _ => d.cached.mem_iff
  funext c
  unfold usable
  simp only [hany]

/-- Where the node lists none of a kind, the cache has none. -/
theorem firstNamed_none (h : d.listed.find? (fun m => P m.row) = none) :
    firstNamed byText (d.cache.filter P) = none := by
  have hempty : d.cache.filter P = [] := by
    refine filter_eq_nil_iff.mpr fun r hr => ?_
    obtain ⟨m, hm, rfl⟩ := (d.mem_cache r).mp hr
    exact List.find?_eq_none.mp h m hm
  rw [hempty]
  rfl

/-- Where the node lists one, the cache has one that is the first by name. -/
theorem firstNamed_some (h : d.listed.find? (fun m => P m.row) = some m) :
    ∃ m₁ ∈ d.listed.filter (fun m => P m.row), firstNamed byText (d.cache.filter P) = some m₁.row ∧
      ∀ x ∈ d.listed.filter (fun m => P m.row), m₁.name ≤ x.name := by
  have hrow : ∀ x ∈ d.listed.filter (fun m => P m.row), x.row ∈ d.cache.filter P := by
    intro x hx
    obtain ⟨hx, hP⟩ := mem_filter.mp hx
    exact mem_filter.mpr ⟨(d.mem_cache _).mpr ⟨x, hx, rfl⟩, hP⟩
  have hm := mem_filter.mpr ⟨mem_of_find?_eq_some h, List.find?_some h⟩
  cases hf : firstNamed byText (d.cache.filter P) with
  | none =>
    have hin := hrow m hm
    rw [takesLeast_firstNamed.none _ hf] at hin
    cases hin
  | some r =>
    obtain ⟨hr, hP⟩ := mem_filter.mp (takesLeast_firstNamed.mem hf)
    obtain ⟨m₁, hm₁, rfl⟩ := (d.mem_cache r).mp hr
    exact ⟨m₁, mem_filter.mpr ⟨hm₁, hP⟩, rfl, fun x hx => takesLeast_firstNamed.le hf x.row
      (hrow x hx)⟩

theorem source_of_converts {listed : List Info} {space : Text}
    (h : converts listed space c = true) : ∃ via, c.sourceModel = some via := by
  cases hs : c.sourceModel with
  | none => simp [converts, usable, Info.row, hs] at h
  | some via => exact ⟨via, rfl⟩

/-- What the SQL answers once no embed model matches. -/
theorem resolveEmbedRouteFor_bridge {debug : Text → Text} {rows : List ModelRow}
    (h : Discovery.route byText rows name space = none) :
    (resolveEmbedRouteFor byText debug rows name space).toOption.map EmbedResolution.intoCall =
      (firstNamed byText (rows.filter (usable rows (space.getD name)))).bind fun c =>
        c.sourceModel.bind fun via => (firstNamed byText (rows.filter isExecutor)).map fun b =>
          (b.name, ⟨some via, some (space.getD name)⟩) := by
  unfold resolveEmbedRouteFor
  rw [h]
  dsimp only
  cases hc : firstNamed byText (rows.filter (usable rows (space.getD name))) with
  | none => rfl
  | some c =>
    cases hs : c.sourceModel with
    | none =>
      simp only [bind_some, hs]
      rfl
    | some via =>
      simp only [bind_some, hs]
      cases firstNamed byText (rows.filter isExecutor) <;> rfl

/-- What the client answers once no embed model matches. -/
theorem routeByKey_bridge (h : (d.client.models.filter (candidate name space)).argmin
      (fun m => routeKey name (keyed d.json m)) = none) :
    (d.client.routeByKey d.json name space).toOption = bridgeOf (space.getD name) d.listed := by
  have hnode : (d.client.nodes.findSome? fun n => bridgeOf (space.getD name) n.2) =
      bridgeOf (space.getD name) d.listed := by
    have hmap : (d.client.nodes.findSome? fun n => bridgeOf (space.getD name) n.2) =
        (d.client.nodes.map Prod.snd).findSome? (bridgeOf (space.getD name)) := by
      rw [List.findSome?_map]
      rfl
    rw [hmap, d.node, List.findSome?_singleton]
  unfold Client.routeByKey
  rw [h]
  simp only [hnode]
  cases bridgeOf (space.getD name) d.listed <;> rfl

/-- The bridges agree where the list has the order of the names. -/
theorem bridge_eq_iff {target : Text} {b : Info}
    (hc : d.listed.find? (converts d.listed target) = some c)
    (hb : d.listed.find? executes = some b) :
    ((firstNamed byText (d.cache.filter (usable d.cache target))).bind fun c =>
        c.sourceModel.bind fun via => (firstNamed byText (d.cache.filter isExecutor)).map fun b =>
          (b.name, (⟨some via, some target⟩ : EmbedRoute))) = bridgeOf target d.listed ↔
      (∃ c' ∈ d.listed.filter (converts d.listed target), c'.sourceModel = c.sourceModel ∧
        ∀ x ∈ d.listed.filter (converts d.listed target), c'.name ≤ x.name) ∧
      ∀ x ∈ d.listed.filter executes, b.name ≤ x.name := by
  rw [bridgeOf_eq, d.usable_cache, hc, hb]
  obtain ⟨c₁, hc₁, hfc, hlec⟩ := d.firstNamed_some hc
  obtain ⟨b₁, hb₁, hfb, hleb⟩ := d.firstNamed_some hb
  obtain ⟨via, hvia⟩ : ∃ via, c.sourceModel = some via := source_of_converts (List.find?_some hc)
  obtain ⟨via₁, hvia₁⟩ := source_of_converts (mem_filter.mp hc₁).2
  have hrow : c₁.row.sourceModel = some via₁ := hvia₁
  have heq : (b₁.row.name, (⟨some via₁, some target⟩ : EmbedRoute)) =
    (b.name, ⟨some via, some target⟩) ↔
      via₁ = via ∧ b₁.name = b.name := by
    simp only [Prod.mk.injEq, EmbedRoute.mk.injEq, Option.some.injEq, and_true]
    exact and_comm
  simp only [hfc, hfb, hrow, hvia, bind_some, map_some, Option.some.injEq]
  rw [heq]
  refine and_congr ⟨?_, ?_⟩ ⟨?_, ?_⟩
  · rintro rfl
    exact ⟨c₁, hc₁, hvia₁, hlec⟩
  · -- names are unique: what is least by name is the converter the SQL takes
    rintro ⟨c', hc', hs, hle⟩
    have hname := le_antisymm (hle c₁ hc₁) (hlec c' hc')
    have hsame := inj_on_of_nodup_map d.names (mem_filter.mp hc').1
      (mem_filter.mp hc₁).1 hname
    rw [hsame, hvia₁] at hs
    exact Option.some.inj hs
  · intro e x hx
    exact e ▸ hleb x hx
  · intro hle
    have hb' := mem_filter.mpr ⟨mem_of_find?_eq_some hb, List.find?_some hb⟩
    exact le_antisymm (hleb b hb') (hle b₁ hb₁)

/-- **When the two resolutions agree.** -/
theorem sameRoute_iff (d : OneNode) (debug : Text → Text) (name : Text) (space : Option Text) :
    (resolveEmbedRouteFor byText debug d.cache name space).toOption.map EmbedResolution.intoCall =
        (d.client.routeByKey d.json name space).toOption ↔
      ListedByName d.listed name space := by
  have hcache : ∀ r, r ∈ d.cache ↔ ∃ m ∈ d.client.models, m.row = r := by
    intro r
    rw [d.mem_cache]
    exact exists_congr fun m => and_congr_left fun _ => d.merged.mem_iff.symm
  have hread : ∀ m ∈ d.client.models, m.extra.priority = fiveDigits (d.json m) :=
    fun m hm => d.read m (d.merged.mem_iff.mp hm)
  have hdirect := route_eq_argmin name space hcache hread
  cases ha : (d.client.models.filter (candidate name space)).argmin
      fun m => routeKey name (keyed d.json m) with
  | some a =>
    rw [ha, map_some, map_eq_some_iff] at hdirect
    obtain ⟨r, hr, hname⟩ := hdirect
    obtain ⟨ham, hac⟩ := mem_filter.mp (argmin_mem ha)
    refine iff_of_true ?_ (.inl ⟨a, d.merged.mem_iff.mp ham, hac⟩)
    simp [resolveEmbedRouteFor, Client.routeByKey, hr, ha, hname, Except.toOption,
      EmbedResolution.intoCall]
  | none =>
    rw [ha, map_none, map_eq_none_iff] at hdirect
    have hnone : ¬ ∃ m ∈ d.listed, candidate name space m = true := by
      rintro ⟨m, hm, hcand⟩
      have hin := mem_filter.mpr ⟨d.merged.mem_iff.mpr hm, hcand⟩
      rw [argmin_eq_none.mp ha] at hin
      cases hin
    rw [resolveEmbedRouteFor_bridge hdirect, d.routeByKey_bridge ha, ListedByName,
      or_iff_right hnone]
    cases hc : d.listed.find? (converts d.listed (space.getD name)) with
    | none =>
      refine iff_of_true ?_ (fun c h => nomatch h)
      rw [bridgeOf_eq, d.usable_cache, d.firstNamed_none hc, hc]
      rfl
    | some c =>
      cases hb : d.listed.find? executes with
      | none =>
        refine iff_of_true ?_ (fun _ _ b h => nomatch h)
        rw [bridgeOf_eq, d.firstNamed_none hb, hb]
        simp only [map_none, bind_fun_none]
      | some b =>
        rw [d.bridge_eq_iff hc hb]
        simp only [mem_some_iff, forall_eq']

end OneNode

/-- A local model with nothing declared. -/
def localModel (name modelType : Text) (sourceModel targetModel : Option Text) :
    Info :=
  ⟨name, modelType, sourceModel, targetModel, none, none, none, ⟨none, none⟩, []⟩

/-- Two converters into one space, the later one by name listed first. -/
def twoConvertersListed : List Info :=
  [localModel ['p'] Discovery.embed none none, localModel ['q'] Discovery.embed none none,
    localModel ['z'] convert (some ['q']) (some ['t']),
    localModel ['a'] convert (some ['p']) (some ['t']), localModel ['b'] embedBridge none none]

def twoConverters : OneNode where
  listed := twoConvertersListed
  names := by decide
  json := fun _ => none
  read := by decide
  cache := twoConvertersListed.map Info.row
  cached := .refl _
  client := refresh (fun _ => twoConvertersListed) 0 [] []
  node := by decide +kernel
  merged := by decide +kernel

/-- The extension embeds with `p`, the client with `q`. -/
theorem twoConverters_differ :
    (resolveEmbedRouteFor byText id twoConverters.cache ['t'] none).toOption.map
        EmbedResolution.intoCall = some (['b'], ⟨some ['p'], some ['t']⟩) ∧
      (twoConverters.client.routeByKey twoConverters.json ['t'] none).toOption =
        some (['b'], ⟨some ['q'], some ['t']⟩) := by
  decide +kernel

end Postvec.Inference
