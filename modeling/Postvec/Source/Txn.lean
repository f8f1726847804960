import Postvec.Lib.Table
import Postvec.Queue.Jobs

/-!
# The source table under READ COMMITTED writers

The table an entry watches, the job queue beside it, and any number of open transactions that write
the table. A transaction's row and job changes are private (`Txn`) until it commits:

* `Txn.table` is the table as the transaction sees it: the committed rows, read anew by each of its
  statements, with its own changes over them.
* A key a transaction has written is locked for the other transactions (`locked`); a `TRUNCATE`
  locks the whole table.
* The triggers are a parameter (`Triggers`): from the rows a statement changed they make queue
  statements (`Cmd`), which run inside the same transaction. Enqueueing is `ON CONFLICT DO
  NOTHING`: where a committed pending job holds the slot, nothing is added and nothing is locked.

A row carries the values of the columns the entry watches (`doc`), the columns the workers fill
(`cols`) and the version PostgreSQL gives it (`xmin`). Writers do not touch `cols`: an inserted row
has them blank and an updated row keeps them.
-/

namespace Postvec

open Machine

/-! ## 1. Rows and statements -/

/-- A row of the source table. -/
structure Row (δ P : Type*) where
  doc : δ
  cols : P
  xmin : Nat
deriving DecidableEq, Repr

/-- One row of an `UPDATE`: the key it had, the key and the watched columns it gets. -/
structure Chg (K δ : Type*) where
  old : K
  new : K
  doc : δ
deriving DecidableEq, Repr

/-- A writer's statement. -/
inductive Stmt (K δ : Type*) where
  | insert (rows : List (K × δ))
  | update (chs : List (Chg K δ))
  | delete (ks : List K)
  | truncate

/-- The old and new image of an updated row, as the `UPDATE` triggers see it. -/
structure Image (K δ : Type*) where
  oldKey : K
  oldDoc : δ
  newKey : K
  newDoc : δ

/-- A queue statement of a trigger. Deletions select by slot and by whether the job is claimed;
    `cutChunks` deletes the chunks of a document. -/
inductive Cmd (K : Type*) where
  | enqueue (s : Slot K)
  | deleteJobs (p : Slot K → Bool → Bool)
  | deleteDead (p : Slot K → Bool)
  | cutChunks (p : K → Bool)

/-- How an entry's triggers are attached. -/
inductive TriggerMode where
  | statement
  | row
deriving DecidableEq, Repr

/-- The triggers of an entry. -/
structure Triggers (K δ : Type*) where
  onInsert : List (K × δ) → List (Cmd K)
  onUpdate : List (Image K δ) → List (Cmd K)
  onDelete : List (K × δ) → List (Cmd K)
  onTruncate : List (Cmd K)

/-! ## 2. A transaction's private changes -/

/-- What a transaction has done to a key: updated the committed row in place, or left it with no
    trace of the committed row (deleted it, moved it away, put another row there). -/
inductive Priv (δ P : Type*) where
  | updated (doc : δ)
  | replaced (row : Option (Row δ P))

/-- An open transaction. -/
structure Txn (K δ P : Type*) where
  mine : Table K (Priv δ P)
  trunc : Bool
  /-- its uncommitted pending jobs -/
  own : List (Slot K)
  /-- committed jobs and dead jobs it has deleted -/
  dropped : List Nat
  droppedDead : List (Job K)
  /-- documents whose chunks it has deleted -/
  cut : K → Bool

variable {K δ P : Type*}

/-- A transaction that has done nothing yet. -/
def Txn.fresh : Txn K δ P := ⟨Table.empty, false, [], [], [], fun _ => false⟩

/-- A private change over the committed row; `x` is the transaction's id. -/
def Priv.apply (x : Nat) : Priv δ P → Option (Row δ P) → Option (Row δ P)
  | .updated d, o => o.map fun r => { r with doc := d, xmin := x }
  | .replaced row, _ => row

/-- The table as transaction `x` sees it. -/
def Txn.table (t : Txn K δ P) (x : Nat) (rows : Table K (Row δ P)) : Table K (Row δ P) :=
  (if t.trunc then Table.empty else rows).overlay t.mine (Priv.apply x)

/-- The transaction has changed the table. -/
def Txn.wrote (t : Txn K δ P) : Bool := t.trunc || !t.mine.dom.isEmpty

/-- The source table, the queue and the open transactions. -/
structure Db (K δ P : Type*) where
  rows : Table K (Row δ P)
  queue : Queue K
  txns : Table Nat (Txn K δ P)
  nextXid : Nat

/-- What a writer does next. -/
inductive WriterAct (K δ : Type*) where
  | begin
  | exec (x : Nat) (st : Stmt K δ)
  | commit (x : Nat)
  | rollback (x : Nat)

variable [DecidableEq K]

/-- Assignments to keys, the first one of a key counting. -/
def putAll {V : Type*} (t : Table K V) : List (K × V) → Table K V
  | [] => t
  | a :: as => (putAll t as).put a.1 a.2

/-! ## 3. Executing a statement -/

/-- The keys a statement writes. -/
def Stmt.keys : Stmt K δ → List K
  | .insert rows => rows.map Prod.fst
  | .update chs => chs.map Chg.old ++ chs.map Chg.new
  | .delete ks => ks
  | .truncate => []

/-- Primary keys: what a statement inserts is not there, what it changes is, and the keys are
    distinct at its end (a deferrable key is checked only there). -/
def Stmt.ok (view : Table K (Row δ P)) : Stmt K δ → Bool
  | .insert rows => decide (rows.map Prod.fst).Nodup && rows.all fun r => (view.get r.1).isNone
  | .update chs =>
    decide (chs.map Chg.old).Nodup && decide (chs.map Chg.new).Nodup &&
      chs.all fun c => (view.get c.old).isSome &&
        (decide (c.new = c.old) || (view.get c.new).isNone || (chs.map Chg.old).contains c.new)
  | .delete ks => decide ks.Nodup && ks.all fun k => (view.get k).isSome
  | .truncate => true

/-- The private change one row of an `UPDATE` makes under its new key. -/
def Txn.changed (t : Txn K δ P) (x : Nat) (view : Table K (Row δ P)) (c : Chg K δ) : Priv δ P :=
  if c.old = c.new then
    match t.mine.get c.old with
    | some (.replaced row) => .replaced (row.map fun r => { r with doc := c.doc, xmin := x })
    | _ => .updated c.doc
  else .replaced ((view.get c.old).map fun r => { r with doc := c.doc, xmin := x })

/-- The private changes a statement makes. -/
def Txn.writes [Inhabited P] (t : Txn K δ P) (x : Nat) (view : Table K (Row δ P)) :
    Stmt K δ → List (K × Priv δ P)
  | .insert rows => rows.map fun r => (r.1, .replaced (some ⟨r.2, default, x⟩))
  | .update chs =>
    (chs.map fun c => (c.new, t.changed x view c)) ++ chs.map fun c => (c.old, .replaced none)
  | .delete ks => ks.map fun k => (k, .replaced none)
  | .truncate => []

/-- The rows with the given keys, as a trigger's transition table shows them. -/
def docsAt (view : Table K (Row δ P)) (ks : List K) : List (K × δ) :=
  ks.filterMap fun k => (view.get k).map fun r => (k, r.doc)

/-- The old and new images of an `UPDATE`. -/
def images (view : Table K (Row δ P)) (chs : List (Chg K δ)) : List (Image K δ) :=
  chs.filterMap fun c => (view.get c.old).map fun r => ⟨c.old, r.doc, c.new, c.doc⟩

/-- The queue statements the triggers make of a statement. -/
def Triggers.fire (trg : Triggers K δ) (view : Table K (Row δ P)) : Stmt K δ → List (Cmd K)
  | .insert rows => trg.onInsert rows
  | .update chs => trg.onUpdate (images view chs)
  | .delete ks => trg.onDelete (docsAt view ks)
  | .truncate => trg.onTruncate

/-- A pending job the transaction can see holds the slot. -/
def Txn.sees (t : Txn K δ P) (q : Queue K) (s : Slot K) : Bool :=
  t.own.contains s ||
    q.jobs.any fun j => !j.claimed && decide (j.slot = s) && !t.dropped.contains j.id

/-- A queue statement inside the transaction. -/
def Txn.run (q : Queue K) (t : Txn K δ P) : Cmd K → Txn K δ P
  | .enqueue s => if t.sees q s then t else { t with own := t.own ++ [s] }
  | .deleteJobs p =>
    { t with
      own := t.own.filter fun s => !p s false
      dropped := t.dropped ++ (q.jobs.filter fun j => p j.slot j.claimed).map Job.id }
  | .deleteDead p =>
    { t with droppedDead := t.droppedDead ++ q.dead.filter fun j => p j.slot }
  | .cutChunks p => { t with cut := fun k => t.cut k || p k }

/-- The rows a statement leaves, before its triggers. -/
def Txn.write [Inhabited P] (t : Txn K δ P) (x : Nat) (rows : Table K (Row δ P)) (st : Stmt K δ) :
    Txn K δ P :=
  match st with
  | .truncate => { t with mine := Table.empty, trunc := true }
  | st => { t with mine := putAll t.mine (t.writes x (t.table x rows) st) }

/-- A statement and its triggers. -/
def Txn.exec [Inhabited P] (trg : Triggers K δ) (t : Txn K δ P) (x : Nat) (db : Db K δ P)
    (st : Stmt K δ) : Txn K δ P :=
  (trg.fire (t.table x db.rows) st).foldl (Txn.run db.queue) (t.write x db.rows st)

/-- Another transaction holds a lock the statement needs: the table after a `TRUNCATE`, a row it
    has written, or, for a `TRUNCATE`, anything it has written. -/
def Db.locked (db : Db K δ P) (x : Nat) (st : Stmt K δ) : Bool :=
  db.txns.any fun y t => decide (y ≠ x) &&
    (t.trunc || (match st with
      | .truncate => t.wrote
      | st => st.keys.any fun k => (t.mine.get k).isSome))

/-- The queue once the transaction has committed. -/
def Txn.commitQueue (t : Txn K δ P) (q : Queue K) : Queue K :=
  ((q.deleteJobs fun j => t.dropped.contains j.id).deleteDead fun j =>
    t.droppedDead.contains j).insertAll (t.own.map fun s => (s, 0))

/-- One step of a writer. A statement that has to wait, or that breaks the primary key, does
    nothing here. -/
def Db.writer [Inhabited P] (trg : Triggers K δ) (db : Db K δ P) :
    WriterAct K δ → Option (Db K δ P)
  | .begin => some { db with txns := db.txns.put db.nextXid .fresh, nextXid := db.nextXid + 1 }
  | .exec x st =>
    match db.txns.get x with
    | none => none
    | some t =>
      if db.locked x st || !st.ok (t.table x db.rows) then none
      else some { db with txns := db.txns.put x (t.exec trg x db st) }
  | .commit x =>
    match db.txns.get x with
    | none => none
    | some t =>
      some { db with
        rows := t.table x db.rows
        queue := t.commitQueue db.queue
        txns := db.txns.erase x }
  | .rollback x =>
    match db.txns.get x with
    | none => none
    | some _ => some { db with txns := db.txns.erase x }

/-! ## 4. A worker's write, and what a worker has to wait for -/

/-- A worker's write into one row, in a transaction of its own: `f` sets its columns. -/
def writeVector (db : Db K δ P) (k : K) (f : P → P) : Db K δ P :=
  { db with
    rows := db.rows.adjust k fun r => { r with cols := f r.cols, xmin := db.nextXid }
    nextXid := db.nextXid + 1 }

/-- An open transaction has truncated the table and holds its lock. -/
def Db.truncated (db : Db K δ P) : Bool := db.txns.any fun _ t => t.trunc

/-- An open transaction has deleted the job and holds its lock. -/
def Db.jobLocked (db : Db K δ P) (id : Nat) : Bool :=
  db.txns.any fun _ t => t.dropped.contains id

/-- Enqueueing the slot has to wait for an open transaction: it has a pending job there that is not
    committed, or has deleted the one that is. -/
def Db.slotLocked (db : Db K δ P) (s : Slot K) : Bool :=
  db.txns.any fun _ t => t.own.contains s ||
    db.queue.jobs.any fun j => !j.claimed && decide (j.slot = s) && t.dropped.contains j.id

/-- An open transaction has updated the row in place. -/
def Db.rowLocked (db : Db K δ P) (k : K) : Bool :=
  (db.rows.get k).isSome && db.txns.any fun _ t =>
    match t.mine.get k with
    | some (.updated _) => true
    | _ => false

/-- An open transaction has written the committed row, so `FOR SHARE` waits. -/
def Db.shareBlocked (db : Db K δ P) (k : K) : Bool :=
  (db.rows.get k).isSome && db.txns.any fun _ t => (t.mine.get k).isSome

/-- Returning the jobs to pending does not have to wait. -/
def Db.releasable (db : Db K δ P) (ids : List Nat) : Bool :=
  !db.truncated &&
    db.queue.jobs.all fun j => !(ids.contains j.id && db.slotLocked j.slot)

/-- Returning the jobs to pending, or ending them, does not have to wait. -/
def Db.endable (db : Db K δ P) (ids : List Nat) : Bool :=
  db.releasable ids && ids.all fun i => !db.jobLocked i

end Postvec
