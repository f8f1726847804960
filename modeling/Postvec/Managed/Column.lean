import Postvec.Lib.Run
import Postvec.Managed.Enqueue
import Postvec.Managed.Worker

/-!
# The managed deployment's column mode: the machine

The leader's embed step (`Managed/Worker.lean`) on an entry whose vectors are columns of the source
rows, with any number of open writer transactions and the triggers of `Managed/Enqueue.lean`. The
columns a row carries are a parameter (`P`), and so is how a vector goes into them (`put`): the
routing fixes both.

* The target of a job is the row of its key, its version the row's `xmin`. The `UPDATE` of
  `write_back` finds the committed row; if that has the version, it waits for a transaction that has
  written the row, and if it has not, it changes nothing and does not wait.
* The leader works alone and step by step. A crash, a lost leader lock and any other error of a step
  lose what is in flight; the jobs stay claimed until they expire.
-/

namespace Postvec.Managed

open Machine

/-! ## 1. The entry -/

/-- A column-mode entry: how a row renders, the model, and the settings. -/
structure Entry (δ T V : Type*) extends Model T V where
  /-- the rendered document text, NULL exactly when the source is NULL -/
  text : δ → Option T
  bytes : T → Nat
  batchSize : Nat
  mode : TriggerMode

variable {K δ T V P : Type*}

/-- The vector is the one of the row's current text. -/
def Entry.Good (E : Entry δ T V) (r : Row δ (Option V)) : Prop :=
  r.cols = (E.text r.doc).map E.embed

/-- The database, with columns `P` beside each document, and the jobs the leader has in memory. -/
structure Sys (K δ T P : Type*) where
  db : Db K δ P
  inflight : List (Item K T Nat)

inductive Act (K δ : Type*) where
  | writer (w : WriterAct K δ)
  | expire (ids : List Nat)
  | claim (ids : List Nat)
  | writeBack (answers : List Answer)
  | release (id : Nat)
  | crash

variable [DecidableEq K]

/-! ## 2. The leader's transactions -/

/-- The `SELECT` of a claimed job's row. -/
def readRow (text : δ → Option T) (rows : Table K (Row δ P)) (s : Slot K) :
    Option (Option T × Nat) :=
  (rows.get s.pk).map fun r => (text r.doc, r.xmin)

/-- The claim and the reads of a step. -/
def claim (E : Entry δ T V) (s : Sys K δ T P) (ids : List Nat) : Option (Sys K δ T P) :=
  if s.inflight.isEmpty then
    (claimJobs E.bytes E.batchSize false (readRow E.text s.db.rows) s.db ids).map fun c =>
      { db := { s.db with queue := c.1 }, inflight := c.2 }
  else none

/-- The database with the queue of `writeBackOne` and its write, if there is one. -/
def applyWrite (put : Option V → P → P) (db : Db K δ P) (k : K) (q : Queue K) :
    Option (Option V) → Db K δ P
  | none => { db with queue := q }
  | some v => { writeVector db k (put v) with queue := q }

/-- `write_back` over the jobs in flight and their answers. -/
def writeBack (M : Model T V) (put : Option V → P → P) (s : Sys K δ T P) :
    List Answer → Option (Sys K δ T P)
  | [] => some { s with inflight := [] }
  | a :: as =>
    match s.inflight with
    | [] => some s
    | it :: its =>
      match writeBackOne M s.db false ((s.db.rows.get it.pk).map Row.xmin)
          (s.db.shareBlocked it.pk) it a with
      | none => none
      | some (q, w) => writeBack M put ⟨applyWrite put s.db it.pk q w, its⟩ as

/-- The release of one job of a batch that was rejected as a whole, with what stays in flight. -/
def releaseOne (db : Db K δ P) (inflight : List (Item K T Nat)) (id : Nat) :
    Option (Db K δ P × List (Item K T Nat)) :=
  if inflight.any fun it => it.id == id then
    (tryRelease db id true).map fun queue =>
      ({ db with queue }, inflight.filter fun it => it.id != id)
  else none

/-- The expiry of stale claims, by a leader that has nothing in memory. -/
def expireStale (idle : Bool) (db : Db K δ P) (ids : List Nat) : Option (Db K δ P) :=
  if idle && ids.all fun i => db.queue.jobs.any fun j => decide (j.id = i) && j.claimed then
    expire db ids
  else none

/-- One step of the machine. Writing back waits for a `TRUNCATE`'s table lock, as claiming does. -/
def Sys.step [BEq δ] [Inhabited P] (E : Entry δ T V) (put : Option V → P → P)
    (s : Sys K δ T P) : Act K δ → Option (Sys K δ T P)
  | .writer w => (s.db.writer (triggers E.text false E.mode) w).map fun db => { s with db }
  | .expire ids => (expireStale s.inflight.isEmpty s.db ids).map fun db => { s with db }
  | .claim ids => claim E s ids
  | .writeBack answers => if s.db.truncated then none else writeBack E.toModel put s answers
  | .release id => (releaseOne s.db s.inflight id).map fun r => ⟨r.1, r.2⟩
  | .crash => some { s with inflight := [] }

/-- Outside a migration the vector column is the only one. -/
def setVector (v _old : Option V) : Option V := v

/-! ## 3. Invariants over a batch -/

section Batches

variable {M : Model T V} {put : Option V → P → P} {s s' : Sys K δ T P}

/-- What one job's write-back and losing what is in flight keep, a whole batch keeps. -/
theorem writeBack_invariant {I : Sys K δ T P → Prop}
    (lost : ∀ s, I s → I { s with inflight := [] })
    (one : ∀ s it its q w, I s → s.inflight = it :: its →
      Wrote M s.db ((s.db.rows.get it.pk).map Row.xmin) (s.db.shareBlocked it.pk) it q w →
      I ⟨applyWrite put s.db it.pk q w, its⟩) :
    ∀ {answers : List Answer} {s s' : Sys K δ T P}, I s → writeBack M put s answers = some s' →
      I s'
  | [], s, s', hI, h => by
    cases h
    exact lost s hI
  | a :: as, s, s', hI, h => by
    unfold writeBack at h
    split at h
    · cases h
      exact hI
    · rename_i it its hin
      split at h
      · cases h
      · rename_i q w hw
        exact writeBack_invariant lost one (one s it its q w hI hin (writeBackOne_cases hw)) h

/-- What a release keeps, an expiry keeps. -/
theorem expire_invariant {I : Db K δ P → Prop}
    (one : ∀ db id, I db → releaseWaits db id true = false →
      I { db with queue := release db.queue id true }) :
    ∀ {ids : List Nat} {db db' : Db K δ P}, I db → expire db ids = some db' → I db'
  | [], db, db', hI, h => by
    cases h
    exact hI
  | id :: ids, db, db', hI, h => by
    unfold expire at h
    split at h
    · cases h
    · rename_i q hq
      simp only [tryRelease, Option.ite_none_left_eq_some, Bool.not_eq_true,
        Option.some.injEq] at hq
      obtain ⟨hr, rfl⟩ := hq
      exact expire_invariant one (one db id hI hr) h

theorem expireStale_invariant {I : Db K δ P → Prop}
    (one : ∀ db id, I db → releaseWaits db id true = false →
      I { db with queue := release db.queue id true })
    {idle : Bool} {ids : List Nat} {db db' : Db K δ P} (hI : I db)
    (h : expireStale idle db ids = some db') : I db' :=
  expire_invariant one hI (Option.ite_none_right_eq_some.mp h).2

/-- What the release of a job in flight leaves. -/
theorem releaseOne_some {db : Db K δ P} {inflight : List (Item K T Nat)} {id : Nat}
    {r : Db K δ P × List (Item K T Nat)} (h : releaseOne db inflight id = some r) :
    releaseWaits db id true = false ∧ r.1 = { db with queue := release db.queue id true } ∧
      ∀ it ∈ r.2, it ∈ inflight := by
  obtain ⟨q, hq, rfl⟩ := Option.map_eq_some_iff.mp (Option.ite_none_right_eq_some.mp h).2
  obtain ⟨hr, rfl⟩ := tryRelease_some hq
  exact ⟨hr, rfl, fun it hit => (List.mem_filter.mp hit).1⟩

end Batches

end Postvec.Managed
