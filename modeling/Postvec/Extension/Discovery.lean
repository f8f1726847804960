import Postvec.Extension.Routing

/-!
# Discovery: the model cache, and the vector space an entry follows

A refresh brings the list of models the fleet advertises. Embed rows whose width contradicts the
width their space is known at are dropped, the others are upserted into `postvec.models`, every
entry that is not migrating takes over the space of the route it resolves to (`routes`, `route`),
and after a complete refresh the rows that were not advertised are pruned. A statement that fails
leaves the database as it was.

* **`space_follows_bound_name`**: a refresh changes an entry's space only to the space its bound
  name is declared in, or to the bound name itself; and where the fleet keeps declaring the bound
  name in the space it has, the entry keeps its space and every route it resolves to serves that
  space at the entry's width;
* `relabelled_route_moves_space`: the bound route advertised in another space, at another width,
  takes the entry with it.

Left out: `last_seen`, the columns of the view that `_route` does not order by, and a logged
warning.
-/

namespace Postvec.Discovery

open Machine List

/-! ## 1. The tables -/

/-- What the view reads of `raw->'extra'`. -/
structure Extra where
  provider : Option Text
  /-- `priority`, where it is a JSON number written in one to five digits -/
  priority : Option Nat
deriving DecidableEq, Repr

/-- One advertised model. -/
structure ModelInfo where
  name : Text
  modelType : Text
  sourceModel : Option Text
  targetModel : Option Text
  sourceDim : Option UInt32
  targetDim : Option UInt32
  sequenceLen : Option UInt32
  extra : Extra
  /-- the rest of the advertised record -/
  raw : Text
deriving DecidableEq

/-- A row of `postvec.models`. -/
structure ModelRow where
  name : Text
  modelType : Text
  sourceModel : Option Text
  targetModel : Option Text
  sourceDim : Option Int32
  targetDim : Option Int32
  sequenceLen : Option Int32
  extra : Extra
  raw : Text
deriving DecidableEq

/-- What a refresh reads and writes of a `postvec.registry` row. -/
structure Entry where
  model : Text
  space : Option Text
  dim : Int32
  state : EntryState
deriving DecidableEq

structure Db where
  models : List ModelRow
  registry : List Entry
deriving DecidableEq

/-- The row an advertised model is stored as; widths are cast to `int`. -/
def ModelInfo.row (m : ModelInfo) : ModelRow where
  name := m.name
  modelType := m.modelType
  sourceModel := m.sourceModel
  targetModel := m.targetModel
  sourceDim := m.sourceDim.map UInt32.toInt32
  targetDim := m.targetDim.map UInt32.toInt32
  sequenceLen := m.sequenceLen.map UInt32.toInt32
  extra := m.extra
  raw := m.raw

/-- The `model_type` of the rows that serve a space. -/
def embed : Text := "embed".toList

def ModelInfo.space (m : ModelInfo) : Text := m.targetModel.getD m.name

def ModelRow.space (m : ModelRow) : Text := m.targetModel.getD m.name

/-! ## 2. Routes -/

/-- A row of `postvec.routes`. -/
structure Route where
  space : Text
  route : Text
  dim : Option Int32
  priority : Nat
deriving DecidableEq

/-- The declared priority where it is in range, else 100 for a local and 200 for a provider's
route. -/
def Extra.rank (x : Extra) : Nat :=
  let byDefault := if x.provider.isNone then 100 else 200
  match x.priority with
  | some p => if 1 ≤ p ∧ p ≤ 65535 then p else byDefault
  | none => byDefault

def ModelRow.toRoute (m : ModelRow) : Route := ⟨m.space, m.name, m.targetDim, m.extra.rank⟩

/-- The view `postvec.routes`. -/
def routes (models : List ModelRow) : List Route :=
  (models.filter (·.modelType = embed)).map ModelRow.toRoute

/-- The rows `_route(model, space)` chooses from. -/
def eligible (model : Text) (space : Option Text) (x : Route) : Bool :=
  x.route = model || x.space = model || space = some x.space

/-- The `ORDER BY` of `_route`; `collate` is the collation of the database. -/
def order (collate : Text → Text → Ordering) (model : Text) (x y : Route) : Ordering :=
  (compare (y.route == model) (x.route == model)).then <|
  (compare (y.space == model) (x.space == model)).then <|
  (compare x.priority y.priority).then (collate x.route y.route)

/-- The first of a list in an order (`ORDER BY … LIMIT 1`). -/
def first (cmp : Route → Route → Ordering) : List Route → Option Route
  | [] => none
  | x :: xs =>
    match first cmp xs with
    | none => some x
    | some y => if cmp y x = .lt then some y else some x

/-- `postvec._route`. -/
def route (collate : Text → Text → Ordering) (models : List ModelRow) (model : Text)
    (space : Option Text) : Option Route :=
  first (order collate model) ((routes models).filter (eligible model space))

/-! ## 3. One refresh -/

/-- The widths the spaces are known at, with the row that says so; the latest entry of a space is
the one that counts. -/
abbrev Known := List (Text × UInt32 × Text)

/-- A model `retain_space_dims` dropped, with the row it contradicts. -/
structure Conflict where
  model : ModelInfo
  other : Text
  width : UInt32
deriving DecidableEq

/-- The width an advertised model claims for its space: embed models that declare one. -/
def ModelInfo.claims (m : ModelInfo) : Option UInt32 :=
  if m.modelType = embed then m.targetDim.filter (0 < ·) else none

def retainSpaceDims (known : Known) : List ModelInfo → List ModelInfo × List Conflict
  | [] => ([], [])
  | m :: ms =>
    match m.claims with
    | none =>
      let (kept, conflicts) := retainSpaceDims known ms
      (m :: kept, conflicts)
    | some dim =>
      match known.lookup m.space with
      | some (width, other) =>
        let (kept, conflicts) := retainSpaceDims known ms
        if width ≠ dim then (kept, ⟨m, other, width⟩ :: conflicts)
        else (m :: kept, conflicts)
      | none =>
        let (kept, conflicts) := retainSpaceDims ((m.space, dim, m.name) :: known) ms
        (m :: kept, conflicts)

/-- The width a cached row says its space has. -/
def ModelRow.width (m : ModelRow) : Option (Text × UInt32 × Text) :=
  if m.modelType = embed then
    (m.targetDim.filter (0 < ·)).map fun d => (m.space, d.toUInt32, m.name)
  else none

def Entry.width (e : Entry) : Text × UInt32 × Text :=
  (e.space.getD e.model, e.dim.toUInt32, e.model)

/-- The query of `skip_space_dim_conflicts`, collected into a map: a later row overrides. -/
def known (db : Db) : Known :=
  (db.models.filterMap ModelRow.width ++ db.registry.map Entry.width).reverse

/-- The models that are kept, and the cache without the rows of the dropped ones. -/
def skipSpaceDimConflicts (db : Db) (models : List ModelInfo) : List ModelInfo × List ModelRow :=
  let (kept, conflicts) := retainSpaceDims (known db) models
  (kept, db.models.filter fun r => r.name ∉ conflicts.map (·.model.name))

/-- `INSERT … ON CONFLICT (name) DO UPDATE … WHERE` the row differs. A row that the statement has
already inserted or updated cannot be affected a second time: the statement fails. -/
def insertModels (rows : List ModelRow) (touched : List Text) : List ModelInfo →
    Option (List ModelRow)
  | [] => some rows
  | m :: ms =>
    match rows.find? (·.name = m.name) with
    | none => insertModels (rows ++ [m.row]) (m.name :: touched) ms
    | some old =>
      if m.name ∈ touched then none
      else if old = m.row then insertModels rows touched ms
      else insertModels (rows.map fun r => if r.name = m.name then m.row else r)
        (m.name :: touched) ms

section Refresh

variable (collate : Text → Text → Ordering)

/-- The registry `UPDATE`: an entry that is not migrating takes over the space of its route. -/
def follow (models : List ModelRow) (e : Entry) : Entry :=
  if e.state = .migrating then e
  else match route collate models e.model e.space with
    | none => e
    | some x => { e with space := some x.space }

def upsertModels (db : Db) (models : List ModelInfo) : Option Db :=
  if models = [] then some db
  else
    let (kept, rows) := skipSpaceDimConflicts db models
    if kept = [] then some { db with models := rows }
    else (insertModels rows [] kept).map fun rows =>
      { models := rows, registry := db.registry.map (follow collate rows) }

def pruneUnseenModels (db : Db) (models : List ModelInfo) : Db :=
  { db with models := db.models.filter fun r => r.name ∈ models.map (·.name) }

/-- What discovery reports: `complete` when every endpoint answered. A refresh that is interrupted
before it prunes is a refresh that is not complete. -/
structure Report where
  models : List ModelInfo
  complete : Bool

def refresh (db : Db) (r : Report) : Db :=
  match upsertModels collate db r.models with
  | none => db
  | some db' => if r.complete then pruneUnseenModels db' r.models else db'

end Refresh

/-! ## 4. What the parts of a refresh do -/

theorem mem_of_first {cmp : Route → Route → Ordering} {x : Route} :
    ∀ {xs : List Route}, first cmp xs = some x → x ∈ xs
  | y :: ys, h => by
    unfold first at h
    split at h
    · cases h
      exact mem_cons_self
    · rename_i z hz
      split at h <;> cases h
      · exact mem_cons_of_mem _ (mem_of_first hz)
      · exact mem_cons_self

/-- The first of a list is missing only if the list is empty. -/
theorem first_eq_none {cmp : Route → Route → Ordering} : ∀ {xs : List Route},
    first cmp xs = none → xs = []
  | [], _ => rfl
  | x :: xs, h => by
    unfold first at h
    split at h
    · cases h
    · split at h <;> cases h

variable {collate : Text → Text → Ordering} {models : List ModelRow}

/-- A route comes from a cached embed row that is eligible. -/
theorem route_spec {model : Text}
    {space : Option Text} {x : Route} (h : route collate models model space = some x) :
    ∃ m ∈ models, m.modelType = embed ∧ x = m.toRoute ∧
      (m.name = model ∨ m.space = model ∨ space = some m.space) := by
  obtain ⟨hx, he⟩ := mem_filter.mp (mem_of_first h)
  obtain ⟨m, hm, rfl⟩ := mem_map.mp hx
  obtain ⟨hm, ht⟩ := mem_filter.mp hm
  refine ⟨m, hm, of_decide_eq_true ht, rfl, ?_⟩
  rcases Bool.or_eq_true _ _ ▸ he with he | he
  · rcases Bool.or_eq_true _ _ ▸ he with he | he
    · exact .inl (of_decide_eq_true he)
    · exact .inr (.inl (of_decide_eq_true he))
  · exact .inr (.inr (of_decide_eq_true he))

/-- The space an entry follows, with the rest of the entry. -/
theorem follow_spec (collate : Text → Text → Ordering) (models : List ModelRow) (e : Entry) :
    follow collate models e = e ∨ e.state ≠ .migrating ∧ ∃ m ∈ models, m.modelType = embed ∧
      follow collate models e = { e with space := some m.space } ∧
      (m.name = e.model ∨ m.space = e.model ∨ e.space = some m.space) := by
  unfold follow
  split
  · exact .inl rfl
  · rename_i hstate
    split
    · exact .inl rfl
    · rename_i x hx
      obtain ⟨m, hm, ht, rfl, hc⟩ := route_spec hx
      exact .inr ⟨hstate, m, hm, ht, rfl, hc⟩

theorem mem_of_insertModels {r : ModelRow} : ∀ {ms : List ModelInfo} {rows out : List ModelRow}
    {touched : List Text}, insertModels rows touched ms = some out → r ∈ out →
      r ∈ rows ∨ ∃ m ∈ ms, r = m.row
  | [], rows, out, touched, h, hr => by
    cases h
    exact .inl hr
  | m :: ms, rows, out, touched, h, hr => by
    unfold insertModels at h
    have later : (r ∈ rows ∨ r = m.row) ∨ (∃ m' ∈ ms, r = m'.row) →
        r ∈ rows ∨ ∃ m' ∈ m :: ms, r = m'.row := by
      rintro ((h | h) | ⟨m', hm', h⟩)
      · exact .inl h
      · exact .inr ⟨m, mem_cons_self, h⟩
      · exact .inr ⟨m', mem_cons_of_mem _ hm', h⟩
    apply later
    split at h
    · refine (mem_of_insertModels h hr).imp_left fun h => ?_
      simpa using h
    · split at h
      · cases h
      · split at h
        · exact (mem_of_insertModels h hr).imp_left .inl
        · refine (mem_of_insertModels h hr).imp_left fun h => ?_
          obtain ⟨r', hr', he⟩ := mem_map.mp h
          split at he
          · exact .inr he.symm
          · exact .inl (he ▸ hr')

variable {m : ModelInfo}

/-- The width of a space: the known one, else the one the first row of the space claims. -/
def widthOf (known : Known) (rows : List ModelInfo) (space : Text) : Option UInt32 :=
  ((known.lookup space).map Prod.fst).or
    (rows.findSome? fun m => if m.space = space then m.claims else none)

/-- The row claims another width than its space has. -/
def conflicts (known : Known) (rows : List ModelInfo) (m : ModelInfo) : Bool :=
  m.claims.any fun d => decide (widthOf known rows m.space ≠ some d)

/-- `retain_space_dims` separates the rows that conflict. -/
theorem retainSpaceDims_eq : ∀ (known : Known) (rows : List ModelInfo),
    (retainSpaceDims known rows).1 = rows.filter (fun m => !conflicts known rows m) ∧
      (retainSpaceDims known rows).2.map (·.model) = rows.filter (conflicts known rows)
  | _, [] => ⟨rfl, rfl⟩
  | known, m :: ms => by
    rw [retainSpaceDims]
    have hsame : ∀ {known' : Known}, (∀ s, widthOf known' ms s = widthOf known (m :: ms) s) →
        conflicts known' ms = conflicts known (m :: ms) := by
      intro known' h
      funext x
      unfold conflicts
      rw [h]
    cases hc : m.claims with
    | none =>
      have hno : conflicts known (m :: ms) m = false := by simp [conflicts, hc]
      have hw : ∀ s, widthOf known ms s = widthOf known (m :: ms) s := by
        intro s
        simp [widthOf, hc]
      obtain ⟨h1, h2⟩ := retainSpaceDims_eq known ms
      rw [hsame hw] at h1 h2
      exact ⟨by simp [hno, h1], by simp [hno, h2]⟩
    | some dim =>
      cases hl : known.lookup m.space with
      | some w =>
        obtain ⟨width, other⟩ := w
        have hwm : widthOf known (m :: ms) m.space = some width := by simp [widthOf, hl]
        have hw : ∀ s, widthOf known ms s = widthOf known (m :: ms) s := by
          intro s
          by_cases hs : m.space = s
          · subst hs
            simp [widthOf, hl]
          · simp [widthOf, hs]
        obtain ⟨h1, h2⟩ := retainSpaceDims_eq known ms
        rw [hsame hw] at h1 h2
        by_cases hd : width = dim
        · have hno : conflicts known (m :: ms) m = false := by simp [conflicts, hc, hwm, hd]
          exact ⟨by simp [hno, h1, hd], by simp [hno, h2, hd]⟩
        · have hyes : conflicts known (m :: ms) m = true := by simp [conflicts, hc, hwm, hd]
          exact ⟨by simp [hyes, h1, hd], by simp [hyes, h2, hd]⟩
      | none =>
        -- the space is known from here on at the width this row has
        have hno : conflicts known (m :: ms) m = false := by
          simp [conflicts, hc, widthOf, hl]
        have hw : ∀ s, widthOf ((m.space, dim, m.name) :: known) ms s =
            widthOf known (m :: ms) s := by
          intro s
          by_cases hs : m.space = s
          · subst hs
            simp [widthOf, hl, hc]
          · have hs' : (s == m.space) = false := beq_false_of_ne (Ne.symm hs)
            simp [widthOf, lookup_cons, hs, hs']
        obtain ⟨h1, h2⟩ := retainSpaceDims_eq ((m.space, dim, m.name) :: known) ms
        rw [hsame hw] at h1 h2
        exact ⟨by simp [hno, h1], by simp [hno, h2]⟩

theorem mem_of_retained {ms : List ModelInfo} {known : Known}
    (hm : m ∈ (retainSpaceDims known ms).1) : m ∈ ms := by
  rw [(retainSpaceDims_eq known ms).1] at hm
  exact mem_of_mem_filter hm

/-- A space that is known at width `w` keeps that width: what is kept for it claims no other. -/
theorem claims_of_retained {s : Text} {w d : UInt32} (hs : m.space = s) (hd : m.claims = some d)
    {ms : List ModelInfo} {known : Known} (hk : ∃ n, known.lookup s = some (w, n))
    (hm : m ∈ (retainSpaceDims known ms).1) : d = w := by
  obtain ⟨n, hn⟩ := hk
  rw [(retainSpaceDims_eq known ms).1, mem_filter] at hm
  simpa [conflicts, hd, widthOf, hs, hn, eq_comm] using hm.2

/-- The cache after an upsert, and the registry: unchanged, or every entry followed its route. -/
theorem upsertModels_spec {db db' : Db} {ms : List ModelInfo}
    (h : upsertModels collate db ms = some db') :
    (∀ r ∈ db'.models, r ∈ db.models ∨ ∃ m ∈ (retainSpaceDims (known db) ms).1, r = m.row) ∧
      (db'.registry = db.registry ∨ db'.registry =
        db.registry.map (follow collate db'.models)) := by
  unfold upsertModels at h
  split at h
  · cases h
    exact ⟨fun r hr => .inl hr, .inl rfl⟩
  · dsimp only [skipSpaceDimConflicts] at h
    split at h
    · cases h
      exact ⟨fun r hr => .inl (mem_filter.mp hr).1, .inl rfl⟩
    · obtain ⟨rows, hrows, rfl⟩ := Option.map_eq_some_iff.mp h
      refine ⟨fun r hr => ?_, .inr rfl⟩
      exact (mem_of_insertModels hrows hr).imp_left fun h => (mem_filter.mp h).1

/-- A whole refresh: the rows after it were cached before or are advertised and kept, and the
registry followed some such cache or is as it was. -/
theorem refresh_spec (collate : Text → Text → Ordering) (db : Db) (r : Report) :
    ∃ rows, (∀ x ∈ rows, x ∈ db.models ∨
        ∃ m ∈ (retainSpaceDims (known db) r.models).1, x = m.row) ∧
      (∀ x ∈ (refresh collate db r).models, x ∈ rows) ∧
      ((refresh collate db r).registry = db.registry ∨
        (refresh collate db r).registry = db.registry.map (follow collate rows)) := by
  unfold refresh
  split
  · exact ⟨db.models, fun _ h => .inl h, fun _ h => h, .inl rfl⟩
  · rename_i db' hdb
    obtain ⟨hrows, hreg⟩ := upsertModels_spec hdb
    refine ⟨db'.models, hrows, fun x hx => ?_, ?_⟩
    · split at hx
      · exact (mem_filter.mp hx).1
      · exact hx
    · split
      · exact hreg
      · exact hreg

/-! ## 5. The space an entry follows -/

/-- An embed row or advertised model, by its name and the space it declares. -/
structure Declares where
  name : Text
  space : Text
deriving DecidableEq

def cached (models : List ModelRow) : List Declares :=
  (models.filter (·.modelType = embed)).map fun m => ⟨m.name, m.space⟩

def advertised (models : List ModelInfo) : List Declares :=
  (models.filter (·.modelType = embed)).map fun m => ⟨m.name, m.space⟩

theorem mem_cached {m : ModelRow} (hm : m ∈ models)
    (ht : m.modelType = embed) : ⟨m.name, m.space⟩ ∈ cached models :=
  mem_map.mpr ⟨m, mem_filter.mpr ⟨hm, decide_eq_true ht⟩, rfl⟩

theorem mem_advertised {models : List ModelInfo} (hm : m ∈ models)
    (ht : m.modelType = embed) : ⟨m.name, m.space⟩ ∈ advertised models :=
  mem_map.mpr ⟨m, mem_filter.mpr ⟨hm, decide_eq_true ht⟩, rfl⟩

/-- The declarations leave the entry `e` of space `s` where it is: what is declared under its bound
name, or serves a space of that name, is in `s`; and no entry of another width is bound to a name
declared in `s`. -/
def Settled (registry : List Entry) (e : Entry) (s : Text) (ds : List Declares) : Prop :=
  ∀ d ∈ ds, ((d.name = e.model ∨ d.space = e.model) → d.space = s) ∧
    (d.space = s → ∀ e' ∈ registry, e'.model = d.name → e'.dim = e.dim)

instance (registry : List Entry) (e : Entry) (s : Text) (ds : List Declares) :
    Decidable (Settled registry e s ds) :=
  inferInstanceAs (Decidable (∀ d ∈ ds, _))

/-- The cached rows of a space declare no width, or the width `d`. -/
def AtWidth (models : List ModelRow) (s : Text) (d : Int32) : Prop :=
  ∀ m ∈ models, m.modelType = embed → m.space = s →
    m.targetDim = none ∨ m.targetDim = some 0 ∨ m.targetDim = some d

instance (models : List ModelRow) (s : Text) (d : Int32) : Decidable (AtWidth models s d) :=
  inferInstanceAs (Decidable (∀ m ∈ models, _))

/-- The entries of a space, and those bound to its name, have the width `d`. -/
def Agree (registry : List Entry) (s : Text) (d : Int32) : Prop :=
  ∀ e ∈ registry, (e.space = some s ∨ e.model = s) → e.dim = d

instance (registry : List Entry) (s : Text) (d : Int32) : Decidable (Agree registry s d) :=
  inferInstanceAs (Decidable (∀ e ∈ registry, _))

/-- What the refreshes keep for the entry `e` of space `s`, the `i`-th of the registry. -/
structure Inv (registry₀ : List Entry) (i : Nat) (e : Entry) (s : Text) (db : Db) : Prop where
  present : db.registry[i]? = some e
  settled : Settled registry₀ e s (cached db.models)
  atWidth : AtWidth db.models s e.dim
  agree : Agree db.registry s e.dim
  /-- a refresh changes nothing but spaces -/
  bound : ∀ e' ∈ db.registry, ∃ e₀ ∈ registry₀, e'.model = e₀.model ∧ e'.dim = e₀.dim

section Keep

variable {registry₀ : List Entry} {i : Nat} {e : Entry}
  {s : Text} {db : Db}

/-- Every width known for the space is the entry's, and the entry itself is one that says it. -/
theorem Inv.known_width (hs : e.space = some s) (h : Inv registry₀ i e s db) :
    ∃ n, (known db).lookup s = some (e.dim.toUInt32, n) := by
  have widths : ∀ p ∈ known db, p.1 = s → p.2.1 = e.dim.toUInt32 := by
    intro p hp hps
    rcases mem_append.mp (mem_reverse.mp hp) with hp | hp
    · obtain ⟨m, hm, hw⟩ := mem_filterMap.mp hp
      unfold ModelRow.width at hw
      split at hw
      · rename_i ht
        obtain ⟨d, hd, rfl⟩ := Option.map_eq_some_iff.mp hw
        obtain ⟨hd, hpos⟩ := Option.filter_eq_some_iff.mp hd
        rcases h.atWidth m hm ht hps with h0 | h0 | h0 <;> rw [h0] at hd <;> cases hd
        · exact absurd hpos (by decide)
        · rfl
      · cases hw
    · obtain ⟨e', he', rfl⟩ := mem_map.mp hp
      have hdim : e'.dim = e.dim := by
        apply h.agree e' he'
        cases hsp : e'.space with
        | none => exact .inr (by simpa [Entry.width, hsp] using hps)
        | some s' => exact .inl (by simpa [Entry.width, hsp] using hps)
      exact congrArg Int32.toUInt32 hdim
  have mine : (s, e.dim.toUInt32, e.model) ∈ known db := by
    have hin : e ∈ db.registry := mem_of_getElem? h.present
    refine mem_reverse.mpr (mem_append_right _ (mem_map.mpr ⟨e, hin, ?_⟩))
    simp [Entry.width, hs]
  cases hlook : (known db).lookup s with
  | none => exact absurd (lookup_eq_none_iff.mp hlook _ mine) (by simp)
  | some p =>
    obtain ⟨l₁, l₂, hl, -⟩ := lookup_eq_some_iff.mp hlook
    have hp := widths (s, p) (by rw [hl]; simp) rfl
    exact ⟨p.2, by rw [← hp]⟩

/-- A kept model of the space is stored without a width, or at the entry's. -/
theorem atWidth_of_kept {d : Int32} (ht : m.modelType = embed)
    (h : ∀ w, m.claims = some w → w = d.toUInt32) :
    m.row.targetDim = none ∨ m.row.targetDim = some 0 ∨ m.row.targetDim = some d := by
  cases hm : m.targetDim with
  | none => exact .inl (by simp [ModelInfo.row, hm])
  | some w =>
    by_cases hpos : 0 < w
    · have hw := h w (by simp [ModelInfo.claims, ht, hm, Option.filter, hpos])
      exact .inr (.inr (by simp [ModelInfo.row, hm, hw]))
    · have hw : w = 0 := by grind
      exact .inr (.inl (by simp [ModelInfo.row, hm, hw]))

/-- The rows the entries follow, and that are left after a refresh. -/
theorem Inv.rows (hs : e.space = some s) (h : Inv registry₀ i e s db) {ms : List ModelInfo}
    (hms : Settled registry₀ e s (advertised ms)) {rows : List ModelRow}
    (hrows : ∀ x ∈ rows, x ∈ db.models ∨ ∃ m ∈ (retainSpaceDims (known db) ms).1, x = m.row) :
    Settled registry₀ e s (cached rows) ∧ AtWidth rows s e.dim := by
  constructor
  · intro d hd
    obtain ⟨x, hx, rfl⟩ := mem_map.mp hd
    obtain ⟨hx, ht⟩ := mem_filter.mp hx
    rcases hrows x hx with hx | ⟨m, hm, rfl⟩
    · exact h.settled _ (mem_cached hx (of_decide_eq_true ht))
    · exact hms _ (mem_advertised (mem_of_retained hm) (of_decide_eq_true ht))
  · intro x hx ht hsp
    rcases hrows x hx with hx | ⟨m, hm, rfl⟩
    · exact h.atWidth x hx ht hsp
    · exact atWidth_of_kept ht fun w hw => claims_of_retained hsp hw (h.known_width hs) hm

variable {rows : List ModelRow}

/-- Of settled rows only those of the space are eligible for the entry. -/
theorem Settled.space_eq (hs : e.space = some s)
    (h : Settled registry₀ e s (cached rows)) {m : ModelRow} (hm : m ∈ rows)
    (ht : m.modelType = embed)
    (hc : m.name = e.model ∨ m.space = e.model ∨ e.space = some m.space) : m.space = s := by
  rcases hc with hc | hc | hc
  · exact (h _ (mem_cached hm ht)).1 (.inl hc)
  · exact (h _ (mem_cached hm ht)).1 (.inr hc)
  · rw [hs] at hc
    exact (Option.some.inj hc).symm

theorem follow_settled (hs : e.space = some s)
    (h : Settled registry₀ e s (cached rows)) : follow collate rows e = e := by
  rcases follow_spec collate rows e with hf | ⟨-, m, hm, ht, hf, hc⟩
  · exact hf
  · rw [hf, h.space_eq hs hm ht hc, ← hs]

/-- An entry that follows a route into the space has its width. -/
theorem follow_agree (hset : Settled registry₀ e s (cached rows))
    (h : Inv registry₀ i e s db) {e' : Entry} (he' : e' ∈ db.registry)
    (hsp : (follow collate rows e').space = some s ∨ (follow collate rows e').model = s) :
    (follow collate rows e').dim = e.dim := by
  rcases follow_spec collate rows e' with hf | ⟨-, m, hm, ht, hf, hc⟩ <;> rw [hf] at hsp ⊢
  · exact h.agree e' he' hsp
  · show e'.dim = e.dim
    rcases hsp with hsp | hsp
    · have hms : m.space = s := Option.some.inj hsp
      rcases hc with hc | hc | hc
      · obtain ⟨e₀, he₀, hmod, hdim⟩ := h.bound e' he'
        rw [hdim]
        exact (hset _ (mem_cached hm ht)).2 hms e₀ he₀ (hmod.symm.trans hc.symm)
      · exact h.agree e' he' (.inr (hc.symm.trans hms))
      · exact h.agree e' he' (.inl (hc.trans (congrArg some hms)))
    · exact h.agree e' he' (.inr hsp)

theorem refresh_inv (hs : e.space = some s) (h : Inv registry₀ i e s db) (r : Report)
    (hr : Settled registry₀ e s (advertised r.models)) :
    Inv registry₀ i e s (refresh collate db r) := by
  obtain ⟨rows, hrows, hleft, hreg⟩ := refresh_spec collate db r
  obtain ⟨hset, hwidth⟩ := h.rows hs hr hrows
  have settled : Settled registry₀ e s (cached (refresh collate db r).models) := by
    intro d hd
    obtain ⟨x, hx, rfl⟩ := mem_map.mp hd
    obtain ⟨hx, ht⟩ := mem_filter.mp hx
    exact hset _ (mem_cached (hleft x hx) (of_decide_eq_true ht))
  have atWidth : AtWidth (refresh collate db r).models s e.dim :=
    fun x hx => hwidth x (hleft x hx)
  rcases hreg with hreg | hreg
  · exact ⟨hreg ▸ h.present, settled, atWidth, hreg ▸ h.agree, hreg ▸ h.bound⟩
  · refine ⟨?_, settled, atWidth, ?_, ?_⟩
    · rw [hreg, List.getElem?_map, h.present, Option.map_some, follow_settled hs hset]
    · rw [hreg]
      intro e' he' hsp
      obtain ⟨e₁, he₁, rfl⟩ := mem_map.mp he'
      exact follow_agree hset h he₁ hsp
    · rw [hreg]
      intro e' he'
      obtain ⟨e₁, he₁, rfl⟩ := mem_map.mp he'
      rcases follow_spec collate rows e₁ with hf | ⟨-, m, -, -, hf, -⟩ <;> rw [hf]
      · exact h.bound e₁ he₁
      · exact h.bound e₁ he₁

end Keep

/-- The refreshes as a machine. -/
def step (collate : Text → Text → Ordering) (db : Db) (r : Report) : Option Db :=
  some (refresh collate db r)

/-- A refresh changes an entry's space only where the fleet declares the bound name: to the space of
an embed row of that name, or to the name itself. -/
theorem refresh_moves (collate : Text → Text → Ordering) (db : Db) (r : Report) {i : Nat}
    {e : Entry} (he : db.registry[i]? = some e) :
    ∃ sp, (refresh collate db r).registry[i]? = some { e with space := sp } ∧
      (sp = e.space ∨ e.state ≠ .migrating ∧ (sp = some e.model ∨
        ∃ d ∈ cached db.models ++ advertised r.models, d.name = e.model ∧ sp = some d.space)) := by
  obtain ⟨rows, hrows, -, hreg⟩ := refresh_spec collate db r
  rcases hreg with hreg | hreg
  · exact ⟨e.space, by rw [hreg, he], .inl rfl⟩
  · have at_i : (refresh collate db r).registry[i]? = some (follow collate rows e) := by
      rw [hreg, List.getElem?_map, he, Option.map_some]
    rcases follow_spec collate rows e with hf | ⟨hstate, m, hm, ht, hf, hc⟩ <;> rw [hf] at at_i
    · exact ⟨e.space, at_i, .inl rfl⟩
    · refine ⟨some m.space, at_i, ?_⟩
      rcases hc with hc | hc | hc
      · refine .inr ⟨hstate, .inr ⟨⟨m.name, m.space⟩, ?_, hc, rfl⟩⟩
        rcases hrows m hm with hm | ⟨a, ha, rfl⟩
        · exact mem_append_left _ (mem_cached hm ht)
        · exact mem_append_right _ (mem_advertised (mem_of_retained ha) ht)
      · exact .inr ⟨hstate, .inl (congrArg some hc)⟩
      · exact .inl hc.symm

/-- **The space of a column follows its bound name, and nothing else.** Whatever the fleet
advertises, a refresh leaves an entry's space as it is, or moves it to the space an embed row of the
bound name declares, or to the bound name itself, and it changes nothing else of the entry. Where
the declarations of the bound name stay in the entry's space, as they are at the start, the space
stays over any sequence of refreshes, and every route the entry resolves to serves it, with no width
declared or the entry's. -/
theorem space_follows_bound_name (collate : Text → Text → Ordering) (db₀ : Db) (i : Nat)
    (e : Entry) (he : db₀.registry[i]? = some e) :
    (∀ r : Report, ∃ sp, (refresh collate db₀ r).registry[i]? = some { e with space := sp } ∧
      (sp = e.space ∨ e.state ≠ .migrating ∧ (sp = some e.model ∨
        ∃ d ∈ cached db₀.models ++ advertised r.models,
          d.name = e.model ∧ sp = some d.space))) ∧
    (∀ s, e.space = some s → Settled db₀.registry e s (cached db₀.models) →
      AtWidth db₀.models s e.dim → Agree db₀.registry s e.dim →
      ∀ db, Reach (step collate) (fun _ r => Settled db₀.registry e s
        (advertised r.models)) db₀ db →
        db.registry[i]? = some e ∧
        ∀ x, route collate db.models e.model e.space = some x →
          x.space = s ∧ (x.dim = none ∨ x.dim = some 0 ∨ x.dim = some e.dim)) := by
  refine ⟨fun r => refresh_moves collate db₀ r he, ?_⟩
  intro s hs hset hwidth hagree db hrun
  have inv : Inv db₀.registry i e s db := by
    refine hrun.invariant ⟨he, hset, hwidth, hagree, fun e' he' => ⟨e', he', rfl, rfl⟩⟩ ?_
    intro db r db' hinv hr hstep
    cases hstep
    exact refresh_inv hs hinv r hr
  refine ⟨inv.present, fun x hx => ?_⟩
  obtain ⟨m, hm, ht, rfl, hc⟩ := route_spec hx
  have hsp := inv.settled.space_eq hs hm ht hc
  exact ⟨hsp, inv.atWidth m hm ht hsp⟩

/-! A fleet of one column, bound to the route `stable`. -/

/-- An embed model advertised in a space, at a width. -/
def advert (name space : String) (dim : UInt32) : ModelInfo where
  name := name.toList
  modelType := embed
  sourceModel := none
  targetModel := some space.toList
  sourceDim := none
  targetDim := some dim
  sequenceLen := none
  extra := ⟨none, none⟩
  raw := []

def stableEntry : Entry := ⟨"stable".toList, some "space".toList, 3, .active⟩

def stableDb : Db := ⟨[(advert "stable" "space" 3).row], [stableEntry]⟩

/-- The bound route vanishes from a complete refresh, and another route of its space serves the
column. -/
theorem vanished_route_served :
    ∃ db, Reach (step fun _ _ => .eq)
        (fun _ r => Settled stableDb.registry stableEntry "space".toList (advertised r.models))
        stableDb db ∧
      db.registry[0]? = some stableEntry ∧
      ∀ x, route (fun _ _ => .eq) db.models stableEntry.model stableEntry.space = some x →
        x.space = "space".toList ∧ (x.dim = none ∨ x.dim = some 0 ∨ x.dim = some 3) := by
  refine ⟨refresh (fun _ _ => .eq) stableDb ⟨[advert "spare" "space" 3], true⟩, ?run, ?kept⟩
  case run => exact .next ⟨[advert "spare" "space" 3], true⟩ .start (by decide) rfl
  case kept =>
    exact (space_follows_bound_name _ stableDb 0 stableEntry rfl).2 _ rfl (by decide) (by decide)
      (by decide) _ (.next ⟨[advert "spare" "space" 3], true⟩ .start (by decide) rfl)

/-- The bound route advertised in another space, at another width: the guard knows no width for the
other space, the entry that is not migrating is moved there, and the route it resolves to makes
vectors of another width than its column holds. -/
theorem relabelled_route_moves_space :
    stableEntry.state = .active ∧ stableEntry.space = some "space".toList ∧
      stableEntry.dim = 3 ∧
      (refresh (fun _ _ => .eq) stableDb ⟨[advert "stable" "other" 4], true⟩).registry =
        [{ stableEntry with space := some "other".toList }] ∧
      (route (fun _ _ => .eq)
        (refresh (fun _ _ => .eq) stableDb ⟨[advert "stable" "other" 4], true⟩).models
        stableEntry.model (some "other".toList)).map (fun x => (x.space, x.dim)) =
          some ("other".toList, some 4) := by
  decide

end Postvec.Discovery
