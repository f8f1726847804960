import Postvec.Extension.Routing
import Postvec.Managed.Column

/-!
# A migration of a managed column-mode entry: the machine

While a migration is live each row has two vector columns, and the routing sends fresh embeds to the
new one; once it has failed they go to the old one again. Three parties write:

* any number of writer transactions, with the jobs their triggers enqueue;
* the embed step (`Managed/Worker.lean`), whose jobs are released if the routing has changed since
  they were claimed;
* the driver (`migrate` in `maintenance.rs`): it reads rows whose new column is NULL, in key order
  after a watermark, and writes the new vector where the version is still the one it has read and
  the column still NULL.

`migration_finalize` makes the new column the vector column, or `migration_abort` queues the rows
the new column holds a vector for and drops it. In between the driver or a constraint of the table
may fail the migration, the new column may be dropped by hand, and the entry may be quarantined:
that disables it, fails the migration and deletes its jobs, and while it is disabled its triggers do
nothing but for `TRUNCATE`.

The leader has the jobs of an embed step in memory, or the rows of a batch. What changes the table's
columns waits for every transaction that has written the table. The watermark's counters, error
texts and the waits between retries are left out.
-/

namespace Postvec.Managed.Migrating

open Machine

/-! ## 1. The entry -/

/-- The vector columns of a row. -/
structure Cols (V : Type*) where
  old : Option V
  new : Option V
deriving DecidableEq, Repr

instance {V : Type*} : Inhabited (Cols V) := ⟨⟨none, none⟩⟩

/-- Where fresh embeds go (`routing`). -/
inductive Route where
  | old
  | new
deriving DecidableEq, Repr

structure Entry (δ T V : Type*) where
  /-- the rendered document text, NULL exactly when the source is NULL -/
  text : δ → Option T
  bytes : T → Nat
  vectorBytes : V → Nat
  batchSize : Nat
  mode : TriggerMode
  oldModel : Model T V
  newModel : Model T V
  convert : V → V
  /-- the strategy: embed the texts again, or convert the old vectors -/
  reembed : Bool

/-- A row the driver has read: what it sends for it, if anything, and the version it has read. -/
structure Picked (K T V : Type*) where
  pk : K
  payload : Option (T ⊕ V)
  version : Nat

structure Sys (K δ T V : Type*) where
  db : Db K δ (Cols V)
  /-- the state of the entry is `migrating`, not `disabled` -/
  enabled : Bool
  state : MigState
  /-- the new column is there -/
  hasNew : Bool
  lastPk : Option K
  /-- the jobs of an embed step, with the routing they were claimed under -/
  expected : Route
  inflight : List (Item K T Nat)
  batch : Option (List (Picked K T V))

variable {K δ T V : Type*}

def Entry.model (E : Entry δ T V) : Route → Model T V
  | .old => E.oldModel
  | .new => E.newModel

/-- What `write_back` sets: without a text NULL goes to both columns while migrating. -/
def put : Route → Option V → Cols V → Cols V
  | .old, v, c => { c with old := v }
  | .new, some v, c => { c with new := some v }
  | .new, none, _ => ⟨none, none⟩

/-- `routing`: a live migration takes over. -/
def Sys.route (s : Sys K δ T V) : Route :=
  if s.state = .running ∨ s.state = .awaitingFinalize then .new else .old

inductive Act (K δ : Type*) where
  | writer (w : WriterAct K δ)
  | expire (ids : List Nat)
  | claim (ids : List Nat)
  | writeBack (answers : List Answer)
  | release (id : Nat)
  | crash
  | readBatch
  | writeBatch (outcomes : List Outcome)
  /-- the table rejects a batch, by a constraint or otherwise -/
  | failBatch (violation : Bool)
  | dropColumn
  | quarantine
  | abort
  | finalize

variable [LinearOrder K]

/-! ## 2. Jobs and row writes -/

/-- The triggers of a disabled entry. -/
def Sys.triggers [BEq δ] (E : Entry δ T V) (s : Sys K δ T V) : Triggers K δ :=
  if s.enabled then Managed.triggers E.text false E.mode
  else
    { onInsert := fun _ => []
      onUpdate := fun _ => []
      onDelete := fun _ => []
      onTruncate := (Managed.triggers E.text false E.mode).onTruncate }

def Sys.idle (s : Sys K δ T V) : Bool := s.inflight.isEmpty && s.batch.isNone

def claim (E : Entry δ T V) (s : Sys K δ T V) (ids : List Nat) : Option (Sys K δ T V) :=
  if s.enabled && s.idle then
    (claimJobs E.bytes E.batchSize false (readRow E.text s.db.rows) s.db ids).map fun c =>
      { s with db := { s.db with queue := c.1 }, expected := s.route, inflight := c.2 }
  else none

/-- The loop of `write_back`. A write into a column that was dropped fails, and the entry is
    quarantined for it. -/
def writeBack (E : Entry δ T V) (s : Sys K δ T V) : List Answer → Option (Sys K δ T V)
  | [] => some { s with inflight := [] }
  | a :: as =>
    match s.inflight with
    | [] => some s
    | it :: its =>
      match writeBackOne (E.model s.expected) s.db (decide (s.route ≠ s.expected))
          ((s.db.rows.get it.pk).map Row.xmin) (s.db.shareBlocked it.pk) it a with
      | none => none
      | some (q, w) =>
        if w.isSome && decide (s.expected = .new) && !s.hasNew then none
        else writeBack E { s with
          db := applyWrite (put s.expected) s.db it.pk q w
          inflight := its } as

/-! ## 3. The driver -/

/-- What the driver sends for a row: its text or its old vector, within the cap. -/
def Entry.payload (E : Entry δ T V) (r : Row δ (Cols V)) : Option (T ⊕ V) :=
  if E.reembed then ((E.text r.doc).filter fun t => decide (E.bytes t ≤ itemCap)).map .inl
  else (r.cols.old.filter fun v => decide (E.vectorBytes v ≤ itemCap)).map .inr

/-- What comes back for it. -/
def Entry.answer (E : Entry δ T V) : T ⊕ V → V
  | .inl t => E.newModel.embed t
  | .inr v => E.convert v

/-- The watermark has not passed the key. -/
def afterMark (lastPk : Option K) (k : K) : Bool := lastPk.all fun w => decide (w < k)

/-- The rows left, in key order. -/
def picks (E : Entry δ T V) (s : Sys K δ T V) : List (Picked K T V) :=
  s.db.rows.keys.filterMap fun k => (s.db.rows.get k).bind fun r =>
    if r.cols.new.isNone && afterMark s.lastPk k then some ⟨k, E.payload r, r.xmin⟩ else none

/-- The first transaction of `migrate`. With no row left the migration awaits its end, unless a job
    is left. -/
def readBatch (E : Entry δ T V) (s : Sys K δ T V) : Option (Sys K δ T V) :=
  if s.enabled && s.idle && s.hasNew && decide (s.state = .running) && !s.db.truncated then
    match (picks E s).take E.batchSize with
    | [] =>
      if s.db.queue.jobs.isEmpty then some { s with state := .awaitingFinalize } else some s
    | b => some { s with batch := some b }
  else none

/-- The row is as it was read. -/
def unchanged (db : Db K δ (Cols V)) (p : Picked K T V) : Bool :=
  (db.rows.get p.pk).any fun r => decide (r.xmin = p.version) && r.cols.new.isNone

/-- The loop of the second transaction over the rows read and what came back for those that were
    sent: the tables, whether the migration has failed, and the watermark. A write waits for a
    transaction that has written the row. -/
def driveRows (E : Entry δ T V) (db : Db K δ (Cols V)) (mark : Option K) :
    List (Picked K T V) → List Outcome → Option (Db K δ (Cols V) × Bool × Option K)
  | [], _ => some (db, false, mark)
  | p :: ps, os =>
    match p.payload, os with
    | none, os => driveRows E db (some p.pk) ps os
    | some _, [] => driveRows E db (some p.pk) ps []
    | some x, .vector :: os =>
      if unchanged db p then
        if db.shareBlocked p.pk then none
        else driveRows E (writeVector db p.pk fun c => { c with new := some (E.answer x) })
          (some p.pk) ps os
      else some (db, false, mark)
    | some _, .retry :: _ => some (db, false, mark)
    | some _, .failed :: _ => some (db, true, mark)
    | some _, .dead :: os => driveRows E db (some p.pk) ps os

/-- The second transaction of `migrate`; a column that was dropped meanwhile ends in a
    quarantine. -/
def writeBatch (E : Entry δ T V) (s : Sys K δ T V) (outcomes : List Outcome) :
    Option (Sys K δ T V) :=
  match s.batch with
  | none => none
  | some b =>
    if !s.hasNew || s.db.truncated then none
    else if s.state ≠ .running then some { s with batch := none }
    else
      (driveRows E s.db s.lastPk b outcomes).map fun r => { s with
        db := r.1
        state := if r.2.1 then .failed else s.state
        lastPk := r.2.2
        batch := none }

/-! ## 4. The ends of a migration -/

/-- No open transaction has written the table, so that its columns can be changed. -/
def Sys.unwritten (s : Sys K δ T V) : Bool := !s.db.txns.any fun _ t => t.wrote

/-- The new column is dropped. -/
def withoutNew (s : Sys K δ T V) : Sys K δ T V :=
  { s with
    db := { s.db with rows := s.db.rows.map fun r => { r with
      cols := { r.cols with new := none } } }
    hasNew := false }

/-- The keys `migration_abort` queues: of rows with a source that the new column has a vector for;
    of all rows with a source if the column is gone. -/
def movedOn (E : Entry δ T V) (s : Sys K δ T V) : List K :=
  s.db.rows.keys.filter fun k => (s.db.rows.get k).any fun r =>
    (E.text r.doc).isSome && (!s.hasNew || r.cols.new.isSome)

def abort (E : Entry δ T V) (s : Sys K δ T V) : Option (Sys K δ T V) :=
  if s.unwritten = true ∧ (s.state = .running ∨ s.state = .awaitingFinalize ∨
    s.state = .failed) then
    some { withoutNew { s with
        db := { s.db with
          queue := s.db.queue.insertAll ((movedOn E s).map fun k => (rowSlot k, 0)) } } with
      state := .aborted
      enabled := true }
  else none

/-- `migration_finalize`: the new column becomes the vector column. -/
def finalize (s : Sys K δ T V) : Option (Sys K δ T V) :=
  if s.unwritten = true ∧ s.state = .awaitingFinalize ∧ s.hasNew = true ∧ s.db.queue.jobs = [] then
    some { s with state := .done }
  else none

/-- `quarantine_or_error`. Deleting the jobs waits for transactions that have deleted some. -/
def quarantine (s : Sys K δ T V) : Option (Sys K δ T V) :=
  if s.db.queue.jobs.any fun j => s.db.jobLocked j.id then none
  else some { s with
    db := { s.db with queue := s.db.queue.deleteJobs fun _ => true }
    enabled := false
    state := if s.state = .running ∨ s.state = .awaitingFinalize then .failed else s.state
    inflight := []
    batch := none }

/-- One step, until the migration has ended. -/
def Sys.step [BEq δ] (E : Entry δ T V) (s : Sys K δ T V) (a : Act K δ) :
    Option (Sys K δ T V) :=
  if s.state = .done ∨ s.state = .aborted then none
  else
    match a with
    | .writer w => (s.db.writer (s.triggers E) w).map fun db => { s with db }
    | .expire ids => (expireStale s.idle s.db ids).map fun db => { s with db }
    | .claim ids => claim E s ids
    | .writeBack answers => if s.db.truncated then none else writeBack E s answers
    | .release id =>
      (releaseOne s.db s.inflight id).map fun r => { s with db := r.1, inflight := r.2 }
    | .crash => some { s with inflight := [], batch := none }
    | .readBatch => readBatch E s
    | .writeBatch outcomes => writeBatch E s outcomes
    | .failBatch violation =>
      if s.batch.isNone then none
      else some { s with
        state := if violation && decide (s.state = .running) then .failed else s.state
        batch := none }
    | .dropColumn => if s.unwritten then some (withoutNew s) else none
    | .quarantine => quarantine s
    | .abort => abort E s
    | .finalize => finalize s

end Postvec.Managed.Migrating
