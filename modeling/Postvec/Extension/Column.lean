import Postvec.Lib.Run
import Postvec.Source.TxnSpec

/-!
# The extension's column mode: triggers, worker and machine

A column-mode entry keeps one vector beside each source row. The triggers of
`create_enqueue_triggers`, in both modes, and the worker's transactions; between a claim and its
write-back the worker holds a group of items in memory (`inflight`) and no lock. `ColumnSys.step` is
the machine of all of them with open writer transactions (`Source/Txn.lean`).

Which jobs are due or stale and how inference answers is chosen by the action. Claiming and reading
is one step, as is one write-back, of the whole group or of some of its jobs (`apply_rows`). The
entry is there and enabled, and its routing fixed: `put` says which columns of the row a vector goes
to. A vanished entry and changed routing are in `Extension/Routing.lean`.

A write-back that finds its row deleted or re-keyed by an open transaction waits and then writes
nothing. In the machine it writes first: the version it writes is gone when the transaction
commits. A row updated in place it really waits for (`rowLocked`).
-/

namespace Postvec

open Machine

/-! ## 1. The entry and its triggers -/

/-- A column-mode entry: how a row renders, the model, and the limits. -/
structure ColumnEntry (δ T V : Type*) where
  /-- the rendered document text, NULL exactly when the source is NULL -/
  text : δ → Option T
  embed : T → V
  bytes : T → Nat
  width : V → Nat
  dim : Nat
  itemCap : Nat
  budget : Nat
  maxRetries : Nat
  mode : TriggerMode

variable {K δ T V : Type*}

/-- The vector is the one of the row's current text. -/
def ColumnEntry.Good (E : ColumnEntry δ T V) (r : Row δ (Option V)) : Prop :=
  r.cols = (E.text r.doc).map E.embed

variable [DecidableEq K] [BEq δ]

/-- The `trg_ins_N` function: rows with a source are enqueued. -/
def trgIns (text : δ → Option T) (rows : List (K × δ)) : List (Cmd K) :=
  (rows.filter fun r => (text r.2).isSome).map fun r => .enqueue (rowSlot r.1)

/-- The `trg_pk_N` function, `AFTER UPDATE ... FOR EACH ROW WHEN (key changed)`. -/
def trgPk (imgs : List (Image K δ)) : List (Cmd K) :=
  (imgs.filter fun i => decide (i.newKey ≠ i.oldKey)).map fun i => .enqueue (rowSlot i.newKey)

/-- The `trg_upd_N` function in row mode: a referenced column `IS DISTINCT FROM` what it was. -/
def trgUpdRow (imgs : List (Image K δ)) : List (Cmd K) :=
  (imgs.filter fun i => i.newDoc != i.oldDoc).map fun i => .enqueue (rowSlot i.newKey)

/-- The `trg_upd_N` function in statement mode: new and old transition rows joined on the key. -/
def trgUpdStmt (imgs : List (Image K δ)) : List (Cmd K) :=
  imgs.flatMap fun n =>
    (imgs.filter fun o => decide (o.oldKey = n.newKey) && n.newDoc != o.oldDoc).map
      fun _ => .enqueue (rowSlot n.newKey)

/-- `create_enqueue_triggers` and `trg_truncate` of a column-mode entry. There is no `DELETE`
    trigger. -/
def columnTriggers (text : δ → Option T) (mode : TriggerMode) : Triggers K δ where
  onInsert := trgIns text
  onUpdate := fun imgs => trgPk imgs ++
    match mode with
    | .row => trgUpdRow imgs
    | .statement => trgUpdStmt imgs
  onDelete := fun _ => []
  onTruncate := [.deleteJobs fun _ claimed => !claimed]

/-! ## 2. Reading the sources -/

/-- One row's outcome from a budgeted source read (`SourceRead`); a row that is gone reads as
    `null`. -/
inductive SourceRead (T : Type*) where
  | text (t : T)
  | null
  | tooLarge
  | deferred

/-- `budget.max(1)` -/
def ColumnEntry.batchBudget (E : ColumnEntry δ T V) : Nat := max E.budget 1

/-- `item_cap.clamp(1, budget)` -/
def ColumnEntry.cap (E : ColumnEntry δ T V) : Nat := min (max E.itemCap 1) E.batchBudget

/-- The admission loop of `read_sources`: `used` bytes are admitted, and once the budget is closed
    every later row within the cap defers. -/
def readSources {P : Type*} (E : ColumnEntry δ T V) (rows : Table K (Row δ P)) (used : Nat)
    (closed : Bool) : List (Job K) → List (Job K × SourceRead T)
  | [] => []
  | c :: cs =>
    match (rows.get c.slot.pk).bind fun r => E.text r.doc with
    | none => (c, .null) :: readSources E rows used closed cs
    | some t =>
      if E.bytes t > E.cap then (c, .tooLarge) :: readSources E rows used closed cs
      else if closed = false ∧ used + E.bytes t ≤ E.batchBudget then
        (c, .text t) :: readSources E rows (used + E.bytes t) closed cs
      else (c, .deferred) :: readSources E rows used true cs

/-! ## 3. The worker -/

/-- A claimed job with its text (`JobItem`); no text means the NULL path. -/
structure JobItem (K T : Type*) where
  id : Nat
  pk : K
  attempts : Nat
  text : Option T

/-- What inference answered for a text (`ItemOutcome`); `ok` carries the model's vector of it. -/
inductive ItemOutcome where
  | ok
  | dead
  | retry
deriving DecidableEq, Repr

/-- The database, with columns `P` beside each document, and the worker's group in flight. -/
structure ColumnSys (K δ T P : Type*) where
  db : Db K δ P
  inflight : List (JobItem K T)

inductive ColumnAct (K δ : Type*) where
  | writer (w : WriterAct K δ)
  | claimAndRead (ids : List Nat)
  | applyGroup (jobs : List (Nat × ItemOutcome))
  | releaseFailed (ids : List Nat)
  | reclaimStale (ids : List Nat)
  | crash

variable {P : Type*}

def JobItem.ofRead : Job K × SourceRead T → Option (JobItem K T)
  | (c, .text t) => some ⟨c.id, c.slot.pk, c.attempts, some t⟩
  | (c, .null) => some ⟨c.id, c.slot.pk, c.attempts, none⟩
  | _ => none

def SourceRead.isTooLarge : SourceRead T → Bool
  | .tooLarge => true
  | _ => false

def SourceRead.isDeferred : SourceRead T → Bool
  | .deferred => true
  | _ => false

/-- `claim_and_read`: claim due jobs, read their texts, dead-letter those over the cap and return
    those over the batch budget with their attempt refunded. -/
def claimAndRead (E : ColumnEntry δ T V) (s : ColumnSys K δ T P) (ids : List Nat) :
    Option (ColumnSys K δ T P) :=
  let q := s.db.queue
  let claims := (q.claim fun j => ids.contains j.id).jobs.filter fun j => ids.contains j.id
  let reads := readSources E s.db.rows 0 false claims
  let large := (reads.filter fun r => r.2.isTooLarge).map fun r => r.1.id
  let deferred := (reads.filter fun r => r.2.isDeferred).map fun r => r.1
  if s.inflight.isEmpty && !s.db.truncated &&
      (ids.all fun i => q.jobs.any fun j => decide (j.id = i) && !j.claimed &&
        decide (j.slot.op = .embed) && !s.db.jobLocked i) &&
      deferred.all fun j => !s.db.slotLocked j.slot then
    some
      { db := { s.db with
          queue := ((q.claim fun j => ids.contains j.id).moveToDead
            fun j => large.contains j.id).unclaimJobs (deferred.map Job.id) true }
        inflight := reads.filterMap JobItem.ofRead }
  else none

/-- `apply_group` on one job of the group: the write or NULL, and the end of its job. The routing
    says how a vector, or NULL, is put into the row (`put`). -/
def applyItem (E : ColumnEntry δ T V) (put : Option V → P → P) (db : Db K δ P)
    (it : JobItem K T) (o : ItemOutcome) : Option (Db K δ P) :=
  let finished : Job K → Bool := fun j => j.id == it.id
  match it.text with
  | none =>
    if db.rowLocked it.pk then none
    else some { writeVector db it.pk (put none) with queue := db.queue.deleteJobs finished }
  | some t =>
    match o with
    | .ok =>
      if E.width (E.embed t) ≠ E.dim then
        some { db with queue := db.queue.moveToDead finished }
      else if db.rowLocked it.pk then none
      else some { writeVector db it.pk (put (some (E.embed t))) with
        queue := db.queue.deleteJobs finished }
    | .dead => some { db with queue := db.queue.moveToDead finished }
    | .retry =>
      if it.attempts > E.maxRetries then some { db with queue := db.queue.moveToDead finished }
      else if db.slotLocked (rowSlot it.pk) then none
      else some { db with queue := db.queue.unclaimJobs [it.id] false }

/-- One job of the group leaves the group. -/
def applyOne (E : ColumnEntry δ T V) (put : Option V → P → P) (s : ColumnSys K δ T P) (id : Nat)
    (o : ItemOutcome) : Option (ColumnSys K δ T P) :=
  match s.inflight.find? fun it => it.id == id with
  | none => none
  | some it =>
    if s.db.truncated then none
    else (applyItem E put s.db it o).map fun db =>
      { db, inflight := s.inflight.filter fun it => it.id != id }

/-- `apply_group` on the given jobs of the group. -/
def applyGroup (E : ColumnEntry δ T V) (put : Option V → P → P) (s : ColumnSys K δ T P) :
    List (Nat × ItemOutcome) → Option (ColumnSys K δ T P)
  | [] => some s
  | (id, o) :: jobs =>
    match applyOne E put s id o with
    | none => none
    | some s' => applyGroup E put s' jobs

/-- `release_failed_group`: the write-back of these jobs was rejected. -/
def releaseFailed (E : ColumnEntry δ T V) (s : ColumnSys K δ T P) (ids : List Nat) :
    Option (ColumnSys K δ T P) :=
  if (ids.all fun i => s.inflight.any fun it => it.id == i) && s.db.releasable ids then
    some
      { db := { s.db with queue := releaseJobs s.db.queue E.maxRetries ids }
        inflight := s.inflight.filter fun it => !ids.contains it.id }
  else none

/-- `reclaim_stale`: claims whose visibility timeout expired. The worker runs it at the start of a
    claim, when it has no group in flight. -/
def reclaimStale (E : ColumnEntry δ T V) (s : ColumnSys K δ T P) (ids : List Nat) :
    Option (ColumnSys K δ T P) :=
  if s.inflight.isEmpty && s.db.releasable ids &&
      ids.all fun i => s.db.queue.jobs.any fun j => decide (j.id = i) && j.claimed then
    some { s with db := { s.db with queue := releaseJobs s.db.queue E.maxRetries ids } }
  else none

/-- One step of the machine. A crash loses the group in flight; its jobs stay claimed. -/
def ColumnSys.step [Inhabited P] (E : ColumnEntry δ T V) (put : Option V → P → P)
    (s : ColumnSys K δ T P) : ColumnAct K δ → Option (ColumnSys K δ T P)
  | .writer w => (s.db.writer (columnTriggers E.text E.mode) w).map fun db => { s with db }
  | .claimAndRead ids => claimAndRead E s ids
  | .applyGroup jobs => applyGroup E put s jobs
  | .releaseFailed ids => releaseFailed E s ids
  | .reclaimStale ids => reclaimStale E s ids
  | .crash => some { s with inflight := [] }

/-- Outside a migration the vector column is the only one. -/
def setVector (v _old : Option V) : Option V := v

end Postvec
