import Postvec.Format.Grammar
import Postvec.Lib.Run

/-!
# Routing: which model's vectors a column may hold

While a migration is live, embed jobs are routed to the new model and the new column
(`embed_routing`). The write-back transaction reads the registry entry and the routing again, locks
the vector table, and writes when the routing is the one the vectors were made for. It runs at READ
COMMITTED: between any two of its statements other sessions may commit `migrate()`,
`migration_finalize()` and `migration_abort()` calls, alone or several in one transaction. The
migration driver runs in the worker's process between two groups.

* **`routed_writes_owned`**: as long as no `migrate()` to another model commits between the routing
  read and the lock of the vector table, every vector is written to a column of its own model;
* `foreign_vector_reachable`: the abort and the new `migrate()` that do commit in between leave the
  vector of one model in the column of another.

Left out: the jobs (`Extension/Column.lean`) and the converted rows.
-/

namespace Postvec

open Machine List

/-! ## 1. The catalog -/

inductive EntryState where
  | active
  | migrating
  | disabled
deriving DecidableEq, Repr

inductive MigState where
  | running
  | awaitingFinalize
  | awaitingIndex
  | done
  | failed
  | aborted
deriving DecidableEq, Repr

/-- The `reindex` argument of `migrate()`. -/
inductive Reindex where
  | manual
  | blocking
deriving DecidableEq, Repr

/-- The `strategy` argument of `migrate()`. -/
inductive Strategy where
  | convert
  | reembed
  | auto
deriving DecidableEq, Repr

/-- What routing reads of a `postvec.registry` row; `N` are the names of models and spaces. -/
structure RoutedEntry (N : Type*) where
  model : N
  space : Option N
  dim : Nat
  vectorColumn : Text
  state : EntryState
  /-- the vectors are in the destination table, not in the source table -/
  recursive : Bool
  /-- `trigger_mode = 'none'` -/
  observed : Bool
deriving DecidableEq

/-- A `postvec.migrations` row. -/
structure MigrationRow (N : Type*) where
  id : Nat
  newModel : N
  newDim : Nat
  /-- `resolved_via->>'space'` -/
  space : Option N
  newColumn : Text
  reindex : Reindex
  state : MigState
deriving DecidableEq

/-- The state `IN ('running','awaiting_finalize')` of the routing query. -/
def MigrationRow.live {N : Type*} (m : MigrationRow N) : Bool :=
  match m.state with
  | .running | .awaitingFinalize => true
  | _ => false

/-- The states a migration can be aborted in. -/
def MigrationRow.abortable {N : Type*} (m : MigrationRow N) : Bool :=
  match m.state with
  | .running | .awaitingFinalize | .failed => true
  | _ => false

open MigrationRow (live abortable)

structure Catalog (N : Type*) where
  entry : Option (RoutedEntry N)
  /-- newest first, which is `ORDER BY id DESC` -/
  migrations : List (MigrationRow N)
  /-- the columns of the vector table that matter here, with their `vector(dim)` -/
  columns : List (Text × Nat)
  /-- the vector column has an index -/
  indexed : Bool
  /-- the relation, the source and context columns and the sentinel are as the entry needs them -/
  sound : Bool
  nextId : Nat

/-- What the model catalog answers. -/
structure ModelInfo (N : Type*) where
  /-- `resolve_dim`; `none` is its error -/
  dim : N → Option Nat
  /-- `cache_space` -/
  space : N → Option N
  /-- the space of `postvec._route` -/
  routeSpace : N → Option N
  /-- `resolve_convert` finds a converter from the first space to the second -/
  converts : N → N → Bool

variable {N : Type*} {c : Catalog N} {id : Nat} {m : MigrationRow N}

/-- The column exists. -/
def Catalog.has (c : Catalog N) (col : Text) : Bool := (c.columns.map Prod.fst).contains col

/-- `UPDATE postvec.migrations SET state = .. WHERE id = ..`. -/
def Catalog.setState (c : Catalog N) (id : Nat) (st : MigState) : Catalog N :=
  { c with migrations := c.migrations.map fun m => if m.id = id then { m with state := st } else m }

/-- The routing: the model and the column a group's vectors are made for. -/
structure EmbedRouting (N : Type*) where
  migrationId : Option Nat
  model : N
  space : Option N
  vectorColumn : Text
  dim : Nat
deriving DecidableEq

/-- `embed_routing`: the newest live migration, if the entry was read as migrating. -/
def embedRouting (c : Catalog N) (e : RoutedEntry N) : EmbedRouting N :=
  match e.state, c.migrations.find? live with
  | .migrating, some m => ⟨some m.id, m.newModel, m.space, m.newColumn, m.newDim⟩
  | _, _ => ⟨none, e.model, e.space, e.vectorColumn, e.dim⟩

/-- The model whose vectors the column holds, by the registry and the live migration. -/
def Catalog.assigned (c : Catalog N) (col : Text) : Option N :=
  match c.entry with
  | none => none
  | some e =>
    if col = e.vectorColumn then some e.model
    else ((c.migrations.find? live).filter fun m => m.newColumn = col).map
      MigrationRow.newModel

/-! ## 2. The verbs -/

/-- The name of the column a migration fills. -/
def newColumnOf (col : Text) : Text := col ++ ['_', 'n', 'e', 'w']

/-- `migrate()`; `lossy` says that the column carries metadata the swap would drop. -/
def migrate [DecidableEq N] (I : ModelInfo N) (c : Catalog N) (newModel : N) (strategy : Strategy)
    (reindex : Reindex) (quiesced lossy : Bool) : Option (Catalog N) :=
  match c.entry, I.dim newModel with
  | some e, some newDim =>
    let newSpace := (I.space newModel).getD newModel
    let newColumn := newColumnOf e.vectorColumn
    if e.state = .active ∧ newModel ≠ e.model ∧ (e.observed = true → quiesced = true) ∧
        (reindex = .blocking → newDim ≤ 2000) ∧
        (strategy = .convert → I.converts (e.space.getD e.model) newSpace = true) ∧
        byteLen newColumn ≤ 63 ∧ c.has newColumn = false ∧ lossy = false then
      some { c with
        entry := some { e with state := .migrating }
        migrations :=
          ⟨c.nextId, newModel, newDim, some newSpace, newColumn, reindex, .running⟩ ::
            c.migrations
        columns := (newColumn, newDim) :: c.columns
        nextId := c.nextId + 1 }
    else none
  | _, _ => none

/-- `DROP COLUMN old`, `RENAME COLUMN new TO old`. -/
def swapColumns (old new : Text) (cols : List (Text × Nat)) : List (Text × Nat) :=
  (cols.filter fun p => p.1 ≠ old).map fun p => if p.1 = new then (old, p.2) else p

/-- `migration_finalize()`; `clean` says that nothing blocks the swap, `ready` that a usable index
    exists. -/
def finalize (I : ModelInfo N) (c : Catalog N) (id : Nat) (clean ready : Bool) :
    Option (Catalog N) :=
  match c.migrations.find? (fun m => m.id = id), c.entry with
  | some m, some e =>
    match m.state with
    | .awaitingIndex => some (if ready then c.setState id .done else c)
    | .awaitingFinalize =>
      if clean && c.has e.vectorColumn && c.has m.newColumn then
        let st : MigState := match m.reindex with
          | .blocking => .done
          | .manual => if c.indexed then .awaitingIndex else .done
        some { c.setState id st with
          entry := some { e with
            model := m.newModel
            space := m.space.or (I.routeSpace m.newModel)
            dim := m.newDim
            state := .active }
          columns := swapColumns e.vectorColumn m.newColumn c.columns
          indexed := decide (m.reindex = .blocking) }
      else none
    | _ => none
  | _, _ => none

/-- `migration_abort()`. -/
def abort (c : Catalog N) (id : Nat) : Option (Catalog N) :=
  match c.migrations.find? (fun m => m.id = id), c.entry with
  | some m, some e =>
    if m.abortable then
      some { c.setState id .aborted with
        entry := some { e with state := .active }
        columns := c.columns.filter fun p => p.1 ≠ m.newColumn }
    else none
  | _, _ => none

inductive Verb (N : Type*) where
  | migrate (newModel : N) (strategy : Strategy) (reindex : Reindex) (quiesced lossy : Bool)
  | finalize (id : Nat) (clean ready : Bool)
  | abort (id : Nat)

def Verb.run [DecidableEq N] (I : ModelInfo N) (c : Catalog N) : Verb N → Option (Catalog N)
  | .migrate m st re q l => Postvec.migrate I c m st re q l
  | .finalize id clean ready => Postvec.finalize I c id clean ready
  | .abort id => Postvec.abort c id

/-- The `ACCESS SHARE` locks the write-back holds. -/
structure Held where
  source : Bool
  vector : Bool

/-- The verb waits for the write-back: `migrate()` locks the vector table, the other two the source
    table as well, unless the swap is over and only the index was awaited. -/
def Verb.blocked (held : Held) (c : Catalog N) : Verb N → Bool
  | .migrate .. => held.vector
  | .finalize id .. =>
    (held.source || held.vector) &&
      c.migrations.any fun m => m.id = id && decide (m.state = .awaitingFinalize)
  | .abort _ => held.source || held.vector

/-- A transaction of verbs: it commits whole or not at all. -/
def runVerbs [DecidableEq N] (I : ModelInfo N) (held : Held) :
    List (Verb N) → Catalog N → Option (Catalog N)
  | [], c => some c
  | v :: vs, c =>
    if v.blocked held c then none else (v.run I c).bind (runVerbs I held vs)

/-! ## 3. The write-back, statement by statement -/

/-- Where the worker is: no group; a group in flight, with the routing of its claim; then the
    statements of `apply_group`, with what they have read. -/
inductive Phase (N : Type*) where
  | idle
  | claimed (expected : EmbedRouting N)
  | loaded (expected : EmbedRouting N) (entry : RoutedEntry N)
  | routed (expected : EmbedRouting N) (entry : RoutedEntry N) (fresh : EmbedRouting N)
  | sourceLocked (expected : EmbedRouting N) (entry : RoutedEntry N) (fresh : EmbedRouting N)
  | locked (expected : EmbedRouting N) (entry : RoutedEntry N) (fresh : EmbedRouting N)

/-- In column mode the source table is the vector table. -/
def Phase.held : Phase N → Held
  | .sourceLocked _ e _ => ⟨true, !e.recursive⟩
  | .locked .. => ⟨true, true⟩
  | _ => ⟨false, false⟩

/-- A vector written to `column`: the model that made it, and the model the column was assigned to
    when the `UPDATE` ran. -/
structure VectorWrite (N : Type*) where
  column : Text
  model : N
  owner : Option N
deriving DecidableEq

structure RouteSys (N : Type*) where
  cat : Catalog N
  phase : Phase N
  log : List (VectorWrite N)

inductive RouteAct (N : Type*) where
  /-- another session commits a transaction of verbs -/
  | verbs (tx : List (Verb N))
  /-- the migration driver finishes a migration (`ok`) or fails it -/
  | drive (id : Nat) (ok : Bool)
  | claim
  | load
  | route
  | lockSource
  | lockVector
  /-- the lengths of the vectors the model returned -/
  | update (lens : List Nat)
  /-- the transaction aborts, or the worker stops -/
  | crash

/-- `quarantine_entry`. -/
def Catalog.quarantine (c : Catalog N) : Catalog N :=
  { c with
    entry := c.entry.map fun e => { e with state := .disabled }
    migrations := c.migrations.map fun m => if m.live then { m with state := .failed } else m }

/-- `fail_migration`, for a running migration. -/
def Catalog.failMigration (c : Catalog N) (id : Nat) : Catalog N :=
  { c with migrations := c.migrations.map fun m =>
      if m.id = id ∧ m.state = .running then { m with state := .failed } else m }

/-- The driver at the end of a running migration. -/
def Catalog.drive (c : Catalog N) (id : Nat) (ok : Bool) : Catalog N :=
  { c with migrations := c.migrations.map fun m =>
      if m.id = id ∧ m.state = .running then
        { m with state := if ok then .awaitingFinalize else .failed }
      else m }

/-- The second dependency check of `apply_group`, once the vector table is locked. -/
def lockVector (c : Catalog N) (expected : EmbedRouting N) (e : RoutedEntry N)
    (fresh : EmbedRouting N) : Catalog N × Phase N :=
  if c.has e.vectorColumn then
    if fresh.vectorColumn ≠ e.vectorColumn ∧ c.has fresh.vectorColumn = false then
      -- only the migration's column is gone: the migration fails, the jobs are released
      ((match fresh.migrationId with
        | some id => c.failMigration id
        | none => c), .idle)
    else (c, .locked expected e fresh)
  else (c.quarantine, .idle)

/-- The `UPDATE` of `apply_group`: vectors of the column's length are written. -/
def applyVectors [DecidableEq N] (s : RouteSys N) (expected fresh : EmbedRouting N)
    (lens : List Nat) : Option (RouteSys N) :=
  if fresh ≠ expected then some { s with phase := .idle }
  else if lens.contains fresh.dim then
    -- a column of another dimension raises
    if (s.cat.columns.lookup fresh.vectorColumn) = some fresh.dim then
      some { s with
        phase := .idle
        log := ⟨fresh.vectorColumn, expected.model, s.cat.assigned fresh.vectorColumn⟩ :: s.log }
    else none
  else some { s with phase := .idle }

def RouteSys.step [DecidableEq N] (I : ModelInfo N) (s : RouteSys N) :
    RouteAct N → Option (RouteSys N)
  | .verbs tx => (runVerbs I s.phase.held tx s.cat).map fun cat => { s with cat }
  | .drive id ok =>
    match s.phase with
    | .idle => some { s with cat := s.cat.drive id ok }
    | _ => none
  | .claim =>
    -- the claim holds the relation locks, so entry and routing are of one state
    match s.phase, s.cat.entry with
    | .idle, some e =>
      if e.state ≠ .disabled ∧ s.cat.sound = true ∧ s.cat.has e.vectorColumn = true then
        some { s with phase := .claimed (embedRouting s.cat e) }
      else none
    | _, _ => none
  | .load =>
    match s.phase, s.cat.entry with
    | .claimed x, some e =>
      -- a disabled entry: the jobs are dropped
      some { s with phase := if e.state = .disabled then .idle else .loaded x e }
    | .claimed _, none => some { s with phase := .idle }
    | _, _ => none
  | .route =>
    match s.phase with
    | .loaded x e => some { s with phase := .routed x e (embedRouting s.cat e) }
    | _ => none
  | .lockSource =>
    match s.phase with
    | .routed x e f =>
      if s.cat.sound then some { s with phase := .sourceLocked x e f }
      else some { s with cat := s.cat.quarantine, phase := .idle }
    | _ => none
  | .lockVector =>
    match s.phase with
    | .sourceLocked x e f =>
      let (cat, phase) := lockVector s.cat x e f
      some { s with cat, phase }
    | _ => none
  | .update lens =>
    match s.phase with
    | .locked x _ f => applyVectors s x f lens
    | _ => none
  | .crash => some { s with phase := .idle }

/-- The condition: between the routing read and the lock of the vector table, while the routing is
    a live migration's, no `migrate()` to another model commits. -/
def RouteSys.steady [DecidableEq N] (s : RouteSys N) : RouteAct N → Bool
  | .verbs tx =>
    match s.phase with
    | .routed _ _ f | .sourceLocked _ _ f =>
      f.migrationId.isNone || tx.all fun
        | .migrate m .. => decide (m = f.model)
        | _ => true
    | _ => true
  | _ => true

/-! ## 4. What a verb does -/

theorem mem_setState {st : MigState} {r : MigrationRow N} (h : r ∈ (c.setState id st).migrations) :
    (∃ m ∈ c.migrations, m.id = id ∧ r = { m with state := st }) ∨
    (r ∈ c.migrations ∧ r.id ≠ id) := by
  obtain ⟨m, hm, rfl⟩ := mem_map.mp h
  by_cases e : m.id = id
  · exact .inl ⟨m, hm, e, if_pos e⟩
  · simp only [if_neg e]
    exact .inr ⟨hm, e⟩

/-- Setting a state other than `awaiting_finalize` makes no swap due. -/
theorem not_due_setState {st : MigState} (hst : st ≠ .awaitingFinalize)
    (h : ∀ r ∈ c.migrations, r.state ≠ .awaitingFinalize) :
    ∀ r ∈ (c.setState id st).migrations, r.state ≠ .awaitingFinalize := by
  intro r hr
  rcases mem_setState hr with ⟨m, -, -, rfl⟩ | ⟨hr, -⟩
  · exact hst
  · exact h r hr

/-- A live migration can be aborted. -/
theorem MigrationRow.abortable_of_live (h : m.live = true) :
    m.abortable = true := by
  unfold live at h
  unfold abortable
  split at h
  · rename_i e
    rw [e]
  · rename_i e
    rw [e]
  · cases h

theorem newColumnOf_ne (col : Text) : newColumnOf col ≠ col := by
  intro h
  have := congrArg List.length h
  simp [newColumnOf] at this

theorem has_filter (c : Catalog N) (col : Text) :
    col ∉ (c.columns.filter fun p => p.1 ≠ col).map Prod.fst := by
  intro h
  obtain ⟨p, hp, e⟩ := mem_map.mp h
  have := (mem_filter.mp hp).2
  simp [e] at this

theorem has_swap {old new : Text} (hne : new ≠ old) (cols : List (Text × Nat)) :
    new ∉ (swapColumns old new cols).map Prod.fst := by
  intro h
  obtain ⟨p, hp, e⟩ := mem_map.mp h
  obtain ⟨p', hp', rfl⟩ := mem_map.mp hp
  split at e
  · exact hne e.symm
  · rename_i hn
    exact hn e

/-- The changes a verb can make. -/
inductive VerbEffect (c : Catalog N) : Verb N → Catalog N → Prop
  /-- a migration starts on an active entry -/
  | started {m st re q l e c'} (row : MigrationRow N) (hentry : c.entry = some e)
      (hactive : e.state = .active) (hmodel : row.newModel = m) (hrun : row.state = .running)
      (hcol : row.newColumn = newColumnOf e.vectorColumn)
      (hentry' : c'.entry = some { e with state := .migrating })
      (hmig : c'.migrations = row :: c.migrations)
      (hcols : c'.columns = (row.newColumn, row.newDim) :: c.columns)
      (hid : row.id = c.nextId) (hnext : c'.nextId = c.nextId + 1) :
      VerbEffect c (.migrate m st re q l) c'
  /-- the columns are swapped -/
  | swapped {id cl re e c'} (row : MigrationRow N) (st : MigState) (e' : RoutedEntry N)
      (hrow : row ∈ c.migrations) (hid : row.id = id) (hwait : row.state = .awaitingFinalize)
      (hentry : c.entry = some e) (hst : st = .done ∨ st = .awaitingIndex)
      (hentry' : c'.entry = some e') (hcol : e'.vectorColumn = e.vectorColumn)
      (hmig : c'.migrations = (c.setState id st).migrations)
      (hcols : c'.columns = swapColumns e.vectorColumn row.newColumn c.columns)
      (hnext : c'.nextId = c.nextId) :
      VerbEffect c (.finalize id cl re) c'
  /-- the awaited index was there, or not yet -/
  | settled {id cl re} (row : MigrationRow N) (hrow : row ∈ c.migrations) (hid : row.id = id)
      (hwait : row.state = .awaitingIndex) (ready : Bool) :
      VerbEffect c (.finalize id cl re) (if ready then c.setState id .done else c)
  /-- the migration is aborted -/
  | aborted {id e c'} (row : MigrationRow N) (hrow : row ∈ c.migrations) (hid : row.id = id)
      (hopen : row.abortable = true) (hentry : c.entry = some e)
      (hentry' : c'.entry = some { e with state := .active })
      (hmig : c'.migrations = (c.setState id .aborted).migrations)
      (hcols : c'.columns = c.columns.filter fun p => p.1 ≠ row.newColumn)
      (hnext : c'.nextId = c.nextId) :
      VerbEffect c (.abort id) c'

theorem find_id {ms : List (MigrationRow N)}
    (h : ms.find? (fun m => m.id = id) = some m) : m ∈ ms ∧ m.id = id :=
  ⟨mem_of_find?_eq_some h, by simpa using List.find?_some h⟩

theorem Verb.run_effect [DecidableEq N] {I : ModelInfo N} {c' : Catalog N} {v : Verb N}
    (h : v.run I c = some c') : VerbEffect c v c' := by
  cases v with
  | migrate m st re q l =>
    simp only [Verb.run, Postvec.migrate] at h
    split at h
    · rename_i e d he hd
      split at h
      · rename_i hc
        cases h
        exact .started ⟨c.nextId, m, d, _, _, re, .running⟩ he hc.1 rfl rfl rfl rfl rfl rfl rfl rfl
      · cases h
    · cases h
  | finalize id cl re =>
    simp only [Verb.run, Postvec.finalize] at h
    split at h
    · rename_i m e hm he
      obtain ⟨hrow, hid⟩ := find_id hm
      split at h
      · rename_i hst
        cases h
        exact .settled m hrow hid hst re
      · rename_i hst
        split at h
        · cases h
          refine .swapped m _ _ hrow hid hst he ?_ rfl rfl rfl rfl rfl
          cases m.reindex with
          | blocking => exact .inl rfl
          | manual =>
            cases c.indexed with
            | true => exact .inr rfl
            | false => exact .inl rfl
        · cases h
      · cases h
    · cases h
  | abort id =>
    simp only [Verb.run, Postvec.abort] at h
    split at h
    · rename_i m e hm he
      obtain ⟨hrow, hid⟩ := find_id hm
      split at h
      · rename_i hopen
        cases h
        exact .aborted m hrow hid hopen he rfl rfl rfl rfl
      · cases h
    · cases h

/-! ## 5. The invariant -/

/-- At most one migration is open (running, awaiting its finalize, or failed), none while the entry
    is active, and the open one fills the column named after the vector column. -/
structure CatalogOk (c : Catalog N) : Prop where
  ids : ∀ r ∈ c.migrations, ∀ r' ∈ c.migrations, r.id = r'.id → r = r'
  issued : ∀ r ∈ c.migrations, r.id < c.nextId
  one : ∀ r ∈ c.migrations, ∀ r' ∈ c.migrations, r.abortable = true → r'.abortable = true → r = r'
  quiet : ∀ e, c.entry = some e → e.state = .active → ∀ r ∈ c.migrations, r.abortable = false
  named : ∀ e, c.entry = some e → ∀ r ∈ c.migrations, r.abortable = true →
    r.newColumn = newColumnOf e.vectorColumn

section Invariant

variable {c' : Catalog N} {st : MigState}

/-- A change of states that opens no migration. -/
theorem CatalogOk.map (h : CatalogOk c) {p : MigrationRow N → Prop} [DecidablePred p]
    (hp : ∀ m, p m → { m with state := st }.abortable = true → m.abortable = true)
    (hmig : c'.migrations = c.migrations.map fun m => if p m then { m with state := st } else m)
    (hnext : c'.nextId = c.nextId)
    (hentry : ∀ e', c'.entry = some e' → ∃ e, c.entry = some e ∧
      e'.vectorColumn = e.vectorColumn ∧
      (e'.state = .active → e.state = .active ∨ ∀ r ∈ c'.migrations, r.abortable = false)) :
    CatalogOk c' := by
  set f := fun m : MigrationRow N => if p m then { m with state := st } else m
  have hf : ∀ m, (f m).id = m.id ∧ (f m).newColumn = m.newColumn ∧
      ((f m).abortable = true → m.abortable = true) := by
    intro m
    by_cases hm : p m
    · simp only [f, if_pos hm]
      exact ⟨trivial, trivial, hp m hm⟩
    · simp [f, hm]
  have hmem : ∀ r ∈ c'.migrations, ∃ m ∈ c.migrations, f m = r := fun r hr =>
    mem_map.mp (hmig ▸ hr)
  refine ⟨?_, ?_, ?_, ?_, ?_⟩
  · intro r hr r' hr' e
    obtain ⟨m, hm, rfl⟩ := hmem r hr
    obtain ⟨m', hm', rfl⟩ := hmem r' hr'
    rw [(hf m).1, (hf m').1] at e
    rw [h.ids m hm m' hm' e]
  · intro r hr
    obtain ⟨m, hm, rfl⟩ := hmem r hr
    rw [(hf m).1, hnext]
    exact h.issued m hm
  · intro r hr r' hr' ho ho'
    obtain ⟨m, hm, rfl⟩ := hmem r hr
    obtain ⟨m', hm', rfl⟩ := hmem r' hr'
    rw [h.one m hm m' hm' ((hf m).2.2 ho) ((hf m').2.2 ho')]
  · intro e' he' hact r hr
    obtain ⟨e, he, -, hst⟩ := hentry e' he'
    rcases hst hact with hst | hst
    · obtain ⟨m, hm, rfl⟩ := hmem r hr
      by_contra hn
      have := h.quiet e he hst m hm
      rw [(hf m).2.2 (by simpa using hn)] at this
      cases this
    · exact hst r hr
  · intro e' he' r hr ho
    obtain ⟨m, hm, rfl⟩ := hmem r hr
    obtain ⟨e, he, hcol, -⟩ := hentry e' he'
    rw [(hf m).2.1, hcol]
    exact h.named e he m hm ((hf m).2.2 ho)

/-- Closing the open migration leaves none open. -/
theorem CatalogOk.close (h : CatalogOk c) {row : MigrationRow N}
    (hrow : row ∈ c.migrations) (hid : row.id = id) (hopen : row.abortable = true)
    (hst : ∀ m : MigrationRow N, { m with state := st }.abortable = false)
    (hmig : c'.migrations = (c.setState id st).migrations) :
    ∀ r ∈ c'.migrations, r.abortable = false := by
  intro r hr
  rcases mem_setState (hmig ▸ hr) with ⟨m, -, -, rfl⟩ | ⟨hr, hne⟩
  · exact hst m
  · by_contra ho
    have e := h.one r hr row hrow (by simpa using ho) hopen
    exact hne (by rw [e, hid])

/-- A swap closes its migration. -/
theorem abortable_swapped (hst : st = .done ∨ st = .awaitingIndex) (m : MigrationRow N) :
    { m with state := st }.abortable = false := by
  rcases hst with rfl | rfl
  · rfl
  · rfl

variable {v : Verb N}

/-- The verbs keep the catalog consistent. -/
theorem CatalogOk.verb (h : CatalogOk c) (hv : VerbEffect c v c') : CatalogOk c' := by
  cases hv with
  | started row hentry hactive hmodel hrun hcol hentry' hmig hcols hid hnext =>
    have hq := h.quiet _ hentry hactive
    have hold : ∀ r ∈ c'.migrations, r = row ∨ r ∈ c.migrations := fun r hr =>
      mem_cons.mp (hmig ▸ hr)
    refine ⟨?_, ?_, ?_, ?_, ?_⟩
    · intro r hr r' hr' e
      rcases hold r hr with rfl | hr
      · rcases hold r' hr' with rfl | hr'
        · rfl
        · have := h.issued r' hr'
          omega
      · rcases hold r' hr' with rfl | hr'
        · have := h.issued r hr
          omega
        · exact h.ids r hr r' hr' e
    · intro r hr
      rcases hold r hr with rfl | hr
      · omega
      · have := h.issued r hr
        omega
    · intro r hr r' hr' ho ho'
      rcases hold r hr with rfl | hr
      · rcases hold r' hr' with rfl | hr'
        · rfl
        · rw [hq r' hr'] at ho'
          cases ho'
      · rw [hq r hr] at ho
        cases ho
    · intro e' he' hact
      rw [hentry'] at he'
      cases he'
      cases hact
    · intro e' he' r hr ho
      rw [hentry'] at he'
      cases he'
      rcases hold r hr with rfl | hr
      · exact hcol
      · rw [hq r hr] at ho
        cases ho
  | @swapped id cl re e c' row st e' hrow hid hwait hentry hst hentry' hcol hmig hcols hnext =>
    have hopen : row.abortable = true := by simp [abortable, hwait]
    have hshut := abortable_swapped (N := N) hst
    refine h.map (fun m _ ho => by simp [hshut] at ho) hmig hnext fun e'' he'' => ?_
    rw [hentry'] at he''
    cases he''
    exact ⟨e, hentry, hcol, fun _ => .inr (h.close hrow hid hopen hshut hmig)⟩
  | settled row hrow hid hwait ready =>
    cases ready with
    | false => exact h
    | true => exact h.map (fun _ _ ho => by cases ho) rfl rfl fun e he => ⟨e, he, rfl, .inl⟩
  | @aborted id e c' row hrow hid hopen hentry hentry' hmig hcols hnext =>
    refine h.map (fun _ _ ho => by cases ho) hmig hnext fun e'' he'' => ?_
    rw [hentry'] at he''
    cases he''
    exact ⟨e, hentry, rfl, fun _ => .inr (h.close hrow hid hopen (fun _ => rfl) hmig)⟩

/-- The entry is there, and a routing without a migration stays the registry's: no swap is due. -/
def Expected (c : Catalog N) (x : EmbedRouting N) : Prop :=
  ∃ e, c.entry = some e ∧ (x.migrationId = none → x.vectorColumn = e.vectorColumn ∧
    x.model = e.model ∧ ∀ r ∈ c.migrations, r.state ≠ .awaitingFinalize)

/-- A migration's routing: whatever migration is open, it is to the same model and column, and the
    column is there only with one. -/
def Routed (c : Catalog N) (x : EmbedRouting N) : Prop :=
  x.migrationId.isSome = true → (∃ e, c.entry = some e ∧
    x.vectorColumn = newColumnOf e.vectorColumn) ∧
    (∀ r ∈ c.migrations, r.abortable = true →
      r.live = true ∧ r.newModel = x.model ∧ r.newColumn = x.vectorColumn) ∧
    (x.vectorColumn ∈ c.columns.map Prod.fst → ∃ r ∈ c.migrations, r.abortable = true)

variable {x : EmbedRouting N}

theorem Expected.verb (h : Expected c x) (hv : VerbEffect c v c') : Expected c' x := by
  obtain ⟨e, he, h⟩ := h
  cases hv with
  | started row hentry hactive hm hrun hc hentry' hmig hcols hid hnext =>
    rw [he] at hentry
    cases hentry
    refine ⟨_, hentry', fun hx => ⟨(h hx).1, (h hx).2.1, ?_⟩⟩
    rw [hmig]
    intro r hr hs
    rcases mem_cons.mp hr with rfl | hr
    · rw [hrun] at hs
      cases hs
    · exact (h hx).2.2 r hr hs
  | swapped row st e' hrow hid hw hentry hst hentry' =>
    exact ⟨e', hentry', fun hx => absurd hw ((h hx).2.2 row hrow)⟩
  | settled row hrow hid hw ready =>
    cases ready with
    | false => exact ⟨e, he, h⟩
    | true =>
      exact ⟨e, he, fun hx => ⟨(h hx).1, (h hx).2.1, not_due_setState (by decide) (h hx).2.2⟩⟩
  | aborted row hrow hid hopen hentry hentry' hmig hcols hnext =>
    rw [he] at hentry
    cases hentry
    refine ⟨_, hentry', fun hx => ⟨(h hx).1, (h hx).2.1, ?_⟩⟩
    rw [hmig]
    exact not_due_setState (by decide) (h hx).2.2

/-- A verb other than a `migrate()` to another model keeps a migration's routing valid. -/
theorem Routed.verb (h : Routed c x) (hok : CatalogOk c)
    (hv : VerbEffect c v c') (hm : ∀ m st re q l, v = .migrate m st re q l → m = x.model) :
    Routed c' x := by
  intro hx
  obtain ⟨⟨e, he, hcol⟩, hall, hex⟩ := h hx
  cases hv with
  | started row hentry hactive hmodel hrun hc hentry' hmig hcols hid hnext =>
    rw [he] at hentry
    cases hentry
    refine ⟨⟨_, hentry', hcol⟩, ?_, ?_⟩
    · rw [hmig]
      intro r hr ho
      rcases mem_cons.mp hr with rfl | hr
      · refine ⟨by simp [live, hrun], ?_, by rw [hc, hcol]⟩
        rw [hmodel]
        exact hm _ _ _ _ _ rfl
      · exact hall r hr ho
    · intro _
      exact ⟨row, hmig ▸ mem_cons_self, by simp [abortable, hrun]⟩
  | swapped row st e' hrow hid hwait hentry hst hentry' hcol' hmig hcols hnext =>
    rw [he] at hentry
    cases hentry
    have hopen : row.abortable = true := by simp [abortable, hwait]
    have hnone := hok.close hrow hid hopen (abortable_swapped hst) hmig
    refine ⟨⟨e', hentry', by rw [hcol', hcol]⟩, fun r hr ho => ?_, fun hmem => ?_⟩
    · rw [hnone r hr] at ho
      cases ho
    · -- the column was renamed
      rw [hcols, ← (hall row hrow hopen).2.2] at hmem
      refine absurd hmem (has_swap ?_ _)
      rw [(hall row hrow hopen).2.2, hcol]
      exact newColumnOf_ne _
  | settled row hrow hid hwait ready =>
    cases ready with
    | false => exact ⟨⟨e, he, hcol⟩, hall, hex⟩
    | true =>
      refine ⟨⟨e, he, hcol⟩, fun r hr ho => ?_, fun hmem => ?_⟩
      · rcases mem_setState hr with ⟨m, -, -, rfl⟩ | ⟨hr, -⟩
        · cases ho
        · exact hall r hr ho
      · obtain ⟨r, hr, ho⟩ := hex hmem
        have hne : r.id ≠ row.id := by
          intro e
          rw [hok.ids r hr row hrow e] at ho
          simp [abortable, hwait] at ho
        exact ⟨r, mem_map.mpr ⟨r, hr, if_neg (hid ▸ hne)⟩, ho⟩
  | aborted row hrow hid hopen hentry hentry' hmig hcols hnext =>
    rw [he] at hentry
    cases hentry
    have hnone := hok.close hrow hid hopen (fun _ => rfl) hmig
    refine ⟨⟨_, hentry', hcol⟩, fun r hr ho => ?_, fun hmem => ?_⟩
    · rw [hnone r hr] at ho
      cases ho
    · -- the column was dropped
      rw [hcols, ← (hall row hrow hopen).2.2] at hmem
      exact absurd hmem (has_filter _ _)

variable {e : RoutedEntry N}

/-- A consistent catalog's routing. -/
theorem CatalogOk.expected (h : CatalogOk c) (he : c.entry = some e)
    (hd : e.state ≠ .disabled) : Expected c (embedRouting c e) := by
  refine ⟨e, he, fun hx => ?_⟩
  unfold embedRouting at hx ⊢
  split
  · rename_i m hst hfind
    simp [hst, hfind] at hx
  · rename_i hno
    refine ⟨rfl, rfl, fun r hr hs => ?_⟩
    have hlive : r.live = true := by simp [live, hs]
    cases hst : e.state with
    | disabled => exact hd hst
    | active =>
      have := h.quiet e he hst r hr
      rw [MigrationRow.abortable_of_live hlive] at this
      cases this
    | migrating =>
      cases hf : c.migrations.find? live with
      | some m => exact hno m hst hf
      | none => simpa [hlive] using List.find?_eq_none.mp hf r hr

/-- A migration's routing is valid when it is read, whatever entry it was read for. -/
theorem CatalogOk.routed (h : CatalogOk c) {e₀ : RoutedEntry N} (he : c.entry = some e₀)
    (e : RoutedEntry N) : Routed c (embedRouting c e) := by
  intro hx
  unfold embedRouting at hx ⊢
  split
  · rename_i m hst hfind
    have hm := mem_of_find?_eq_some hfind
    have hlive : m.live = true := by simpa using List.find?_some hfind
    have hopen := MigrationRow.abortable_of_live hlive
    refine ⟨⟨e₀, he, h.named e₀ he m hm hopen⟩, fun r hr ho => ?_, fun _ => ⟨m, hm, hopen⟩⟩
    rw [h.one r hr m hm ho hopen]
    exact ⟨hlive, rfl, rfl⟩
  · rename_i hno
    split at hx
    · rename_i m hst hfind
      exact absurd hfind (hno m hst)
    · cases hx

/-- A vector that goes where the routing says goes to a column of its model. -/
theorem assigned_of_routed (hE : Expected c x) (hR : Routed c x)
    (hcol : x.vectorColumn ∈ c.columns.map Prod.fst) :
    c.assigned x.vectorColumn = some x.model := by
  cases hid : x.migrationId with
  | none =>
    obtain ⟨e, he, hE⟩ := hE
    obtain ⟨hc, hm, -⟩ := hE hid
    simp [Catalog.assigned, he, hc, hm]
  | some m =>
    obtain ⟨⟨e, he, hc⟩, hall, hex⟩ := hR (by rw [hid]; rfl)
    obtain ⟨r, hr, ho⟩ := hex hcol
    have hne : x.vectorColumn ≠ e.vectorColumn := by
      rw [hc]
      exact newColumnOf_ne _
    cases hf : c.migrations.find? live with
    | none =>
      have hl := (hall r hr ho).1
      exact absurd hl (List.find?_eq_none.mp hf r hr)
    | some m =>
      have hm := mem_of_find?_eq_some hf
      have hlive : m.live = true := by simpa using List.find?_some hf
      obtain ⟨-, hmod, hcl⟩ := hall m hm (MigrationRow.abortable_of_live hlive)
      simp [Catalog.assigned, he, hne, hf, hmod, hcl]

/-- What holds of the group in flight. -/
def PhaseOk (c : Catalog N) : Phase N → Prop
  | .idle => True
  | .claimed x => Expected c x
  | .loaded x _ => Expected c x
  | .routed x _ f => Expected c x ∧ (f = x → Routed c x)
  | .sourceLocked x _ f => Expected c x ∧ (f = x → Routed c x)
  | .locked x _ f => Expected c x ∧ (f = x → Routed c x) ∧
      f.vectorColumn ∈ c.columns.map Prod.fst

structure RouteInv (s : RouteSys N) : Prop where
  cat : CatalogOk s.cat
  phase : PhaseOk s.cat s.phase
  owned : ∀ w ∈ s.log, w.owner = some w.model

/-- The verb is no `migrate()` to a model other than the routed one. -/
def Verb.keeps (ph : Phase N) (v : Verb N) : Prop :=
  ∀ m st re q l, v = .migrate m st re q l → match ph with
    | .routed _ _ f | .sourceLocked _ _ f => f.migrationId.isSome = true → m = f.model
    | _ => True

/-- A verb that the locks let through, under the condition, keeps the phase. -/
theorem PhaseOk.verb {ph : Phase N} (h : PhaseOk c ph) (hok : CatalogOk c)
    (hb : v.blocked ph.held c = false) (hv : VerbEffect c v c') (hk : v.keeps ph) :
    PhaseOk c' ph := by
  -- a migration's routing, in a phase whose routing the verb's model matches
  have route : ∀ {x f : EmbedRouting N}, (f = x → Routed c x) →
      (∀ m st re q l, v = .migrate m st re q l → f.migrationId.isSome = true → m = f.model) →
      f = x → Routed c' x := by
    intro x f hR hm e hx
    subst e
    exact (hR rfl).verb hok hv (fun m st re q l hvm => hm m st re q l hvm hx) hx
  cases ph with
  | idle => trivial
  | claimed | loaded => exact Expected.verb h hv
  | routed | sourceLocked => exact ⟨h.1.verb hv, route h.2 hk⟩
  | locked x e f =>
    obtain ⟨hE, hR, hcol⟩ := h
    cases hv with
    | started | aborted => cases hb
    | swapped row st e' hrow hid hwait =>
      exfalso
      simp only [Verb.blocked, Phase.held, Bool.or_self, Bool.true_and, any_eq_false,
        Bool.and_eq_true, decide_eq_true_eq, not_and] at hb
      exact hb row hrow hid hwait
    | @settled id cl re row hrow hid hwait ready =>
      have hs : VerbEffect c (.finalize id cl re) (if ready then c.setState id .done else c) :=
        .settled row hrow hid hwait ready
      refine ⟨hE.verb hs, fun e => (hR e).verb hok hs (fun _ _ _ _ _ h => by cases h), ?_⟩
      cases ready with
      | false | true => exact hcol

variable [DecidableEq N] {I : ModelInfo N}

/-- A transaction of verbs keeps what each of them keeps. -/
theorem runVerbs_keeps {ph : Phase N} : ∀ {tx : List (Verb N)} {c c' : Catalog N},
    CatalogOk c → PhaseOk c ph → (∀ v ∈ tx, v.keeps ph) →
    runVerbs I ph.held tx c = some c' → CatalogOk c' ∧ PhaseOk c' ph
  | [], c, c', hok, hp, _, h => by
    cases h
    exact ⟨hok, hp⟩
  | v :: vs, c, c', hok, hp, hk, h => by
    simp only [runVerbs] at h
    split at h
    · cases h
    · rename_i hb
      obtain ⟨c₁, hv, h⟩ := Option.bind_eq_some_iff.mp h
      have he := Verb.run_effect hv
      exact runVerbs_keeps (hok.verb he)
        (hp.verb hok (by simpa using hb) he (hk v mem_cons_self))
        (fun w hw => hk w (mem_cons_of_mem _ hw)) h

omit [DecidableEq N] in
theorem CatalogOk.quarantine (h : CatalogOk c) : CatalogOk c.quarantine := by
  refine h.map (fun _ hl _ => MigrationRow.abortable_of_live hl) rfl rfl fun e' he' => ?_
  obtain ⟨e, he, rfl⟩ := Option.map_eq_some_iff.mp he'
  exact ⟨e, he, rfl, fun h => by cases h⟩

omit [DecidableEq N] in
/-- A running migration that finishes or fails stays open. -/
theorem CatalogOk.turn (h : CatalogOk c) (hmig : c'.migrations = c.migrations.map fun m =>
      if m.id = id ∧ m.state = .running then { m with state := st } else m)
    (hentry : c'.entry = c.entry) (hnext : c'.nextId = c.nextId) : CatalogOk c' := by
  refine h.map (fun m hm _ => ?_) hmig hnext fun e he => ⟨e, hentry ▸ he, rfl, .inl⟩
  simp [abortable, hm.2]

variable {s s' : RouteSys N} {f : EmbedRouting N}

theorem RouteInv.verbs (h : RouteInv s) {tx : List (Verb N)}
    (hc : s.steady (.verbs tx) = true) (hs : s.step I (.verbs tx) = some s') : RouteInv s' := by
  obtain ⟨cat, hrun, rfl⟩ := Option.map_eq_some_iff.mp hs
  have hk : ∀ v ∈ tx, v.keeps s.phase := by
    rintro v hv m st re q l rfl
    unfold RouteSys.steady at hc
    cases hp : s.phase with
    | routed | sourceLocked =>
      intro hf
      simp only [hp, Bool.or_eq_true, all_eq_true] at hc
      rcases hc with hc | hc
      · simp [Option.isNone_iff_eq_none.mp hc] at hf
      · simpa using hc _ hv
    | _ => trivial
  obtain ⟨hcat, hphase⟩ := runVerbs_keeps h.cat h.phase hk hrun
  exact ⟨hcat, hphase, h.owned⟩

omit [DecidableEq N] in
theorem RouteInv.lockVector (h : RouteInv s) (hp : s.phase = .sourceLocked x e f) :
    RouteInv { s with
      cat := (lockVector s.cat x e f).1, phase := (lockVector s.cat x e f).2 } := by
  have hph := h.phase
  rw [hp] at hph
  unfold Postvec.lockVector
  split
  · rename_i hv
    split
    · refine ⟨?_, trivial, h.owned⟩
      cases f.migrationId with
      | none => exact h.cat
      | some id => exact h.cat.turn rfl rfl rfl
    · rename_i hf
      refine ⟨h.cat, ⟨hph.1, hph.2, ?_⟩, h.owned⟩
      rw [← contains_iff_mem]
      by_cases e' : f.vectorColumn = e.vectorColumn
      · rw [e']
        exact hv
      · by_contra hn
        exact hf ⟨e', by simpa [Catalog.has] using hn⟩
  · exact ⟨h.cat.quarantine, trivial, h.owned⟩

theorem RouteInv.update (h : RouteInv s) (hp : s.phase = .locked x e f) {lens : List Nat}
    (hs : applyVectors s x f lens = some s') : RouteInv s' := by
  obtain ⟨hE, hR, hcol⟩ : PhaseOk s.cat (.locked x e f) := hp ▸ h.phase
  unfold applyVectors at hs
  split at hs
  · cases hs
    exact ⟨h.cat, trivial, h.owned⟩
  · rename_i hfx
    have e' : f = x := not_not.mp hfx
    subst e'
    split at hs
    · split at hs
      · cases hs
        refine ⟨h.cat, trivial, fun w hw => ?_⟩
        rcases mem_cons.mp hw with rfl | hw
        · exact assigned_of_routed hE (hR rfl) hcol
        · exact h.owned w hw
      · cases hs
    · cases hs
      exact ⟨h.cat, trivial, h.owned⟩

/-- Every step under the condition keeps the invariant. -/
theorem RouteInv.step (h : RouteInv s) {a : RouteAct N} (hc : s.steady a = true)
    (hs : s.step I a = some s') : RouteInv s' := by
  have hph := h.phase
  cases a with
  | verbs tx => exact h.verbs hc hs
  | drive id ok =>
    simp only [RouteSys.step] at hs
    split at hs
    · rename_i hp
      cases hs
      refine ⟨h.cat.turn rfl rfl rfl, ?_, h.owned⟩
      show PhaseOk _ s.phase
      rw [hp]
      trivial
    · cases hs
  | claim =>
    simp only [RouteSys.step] at hs
    split at hs
    · rename_i e hp he
      split at hs
      · rename_i hcond
        cases hs
        exact ⟨h.cat, h.cat.expected he hcond.1, h.owned⟩
      · cases hs
    · cases hs
  | load =>
    simp only [RouteSys.step] at hs
    split at hs
    · rename_i x e hp he
      cases hs
      rw [hp] at hph
      refine ⟨h.cat, ?_, h.owned⟩
      show PhaseOk s.cat (if e.state = .disabled then .idle else .loaded x e)
      split
      · trivial
      · exact hph
    · cases hs
      exact ⟨h.cat, trivial, h.owned⟩
    · cases hs
  | route =>
    simp only [RouteSys.step] at hs
    split at hs
    · rename_i x e hp
      cases hs
      rw [hp] at hph
      obtain ⟨e₀, he₀, -⟩ := id hph
      exact ⟨h.cat, ⟨hph, fun hf => hf ▸ h.cat.routed he₀ e⟩, h.owned⟩
    · cases hs
  | lockSource =>
    simp only [RouteSys.step] at hs
    split at hs
    · rename_i x e f hp
      rw [hp] at hph
      split at hs
      · cases hs
        exact ⟨h.cat, hph, h.owned⟩
      · cases hs
        exact ⟨h.cat.quarantine, trivial, h.owned⟩
    · cases hs
  | lockVector =>
    simp only [RouteSys.step] at hs
    split at hs
    · rename_i x e f hp
      cases hs
      exact h.lockVector hp
    · cases hs
  | update lens =>
    simp only [RouteSys.step] at hs
    split at hs
    · rename_i x e f hp
      exact h.update hp hs
    · cases hs
  | crash =>
    cases hs
    exact ⟨h.cat, trivial, h.owned⟩

end Invariant

/-! ## 6. No column holds another model's vectors -/

/-- **Every vector goes to a column of its own model.** In every run of verbs' transactions, driver
    steps and write-backs from a consistent catalog, in which no `migrate()` to another model
    commits between the routing read of a write-back and its lock of the vector table: each vector
    written was made by the model its column was assigned to when the `UPDATE` ran. -/
theorem routed_writes_owned [DecidableEq N] (I : ModelInfo N) (c₀ : Catalog N) (s : RouteSys N)
    (h₀ : CatalogOk c₀)
    (h : Reach (RouteSys.step I) (fun s a => s.steady a = true) ⟨c₀, .idle, []⟩ s) :
    ∀ w ∈ s.log, w.owner = some w.model := by
  have hI : RouteInv s := h.invariant ⟨h₀, trivial, fun w hw => by cases hw⟩
    fun s a s' hI hc hs => hI.step hc hs
  exact hI.owned

section Runs

/-- Every model has its own space and dimension one. -/
def plainModels : ModelInfo Nat where
  dim := fun _ => some 1
  space := fun _ => none
  routeSpace := fun _ => none
  converts := fun _ _ => true

/-- An active column-mode entry of model 0 with the vector column `v`. -/
def plainCatalog : Catalog Nat where
  entry := some ⟨0, none, 1, ['v'], .active, false, false⟩
  migrations := []
  columns := [(['v'], 1)]
  indexed := false
  sound := true
  nextId := 0

theorem plainCatalog_ok : CatalogOk plainCatalog where
  ids := fun r hr => by cases hr
  issued := fun r hr => by cases hr
  one := fun r hr => by cases hr
  quiet := fun e _ _ r hr => by cases hr
  named := fun e _ r hr => by cases hr

/-- A group is claimed while the entry migrates to model 1; after the routing read, and before the
    lock, the migration is aborted and one to model 2 is started. -/
def reroutedRun : List (RouteAct Nat) :=
  [.verbs [.migrate 1 .convert .manual false false], .claim, .load, .route,
    .verbs [.abort 0, .migrate 2 .convert .manual false false], .lockSource, .lockVector,
    .update [1]]

/-- **A foreign vector.** Without the condition a vector of model 1 is written to a column that was
    assigned to model 2. -/
theorem foreign_vector_reachable :
    ∃ s, Reach (RouteSys.step plainModels) (fun _ _ => True) ⟨plainCatalog, .idle, []⟩ s ∧
      s.log = [⟨newColumnOf ['v'], 1, some 2⟩] := by
  have h : (runWhile (RouteSys.step plainModels) (fun _ _ => True) ⟨plainCatalog, .idle, []⟩
      reroutedRun).any (fun s => decide (s.log = [⟨newColumnOf ['v'], 1, some 2⟩])) = true := by
    decide
  obtain ⟨s, hs, hp⟩ := Reach.exists_of_runWhile h
  exact ⟨s, hs, of_decide_eq_true hp⟩

/-- The same run with the verbs before the claim. -/
def steadyRun : List (RouteAct Nat) :=
  [.verbs [.migrate 1 .convert .manual false false],
    .verbs [.abort 0, .migrate 2 .convert .manual false false], .claim, .load, .route, .lockSource,
    .lockVector, .update [1]]

theorem steadyRun_owned :
    ∃ s, Reach (RouteSys.step plainModels) (fun s a => s.steady a = true)
        ⟨plainCatalog, .idle, []⟩ s ∧
      s.log ≠ [] ∧ ∀ w ∈ s.log, w.owner = some w.model := by
  have h : (runWhile (RouteSys.step plainModels) (fun s a => s.steady a = true)
      ⟨plainCatalog, .idle, []⟩ steadyRun).any (fun s => decide (s.log ≠ [])) = true := by
    decide
  obtain ⟨s, hs, hp⟩ := Reach.exists_of_runWhile h
  exact ⟨s, hs, of_decide_eq_true hp,
    routed_writes_owned plainModels plainCatalog s plainCatalog_ok hs⟩

end Runs

end Postvec
