import Postvec.Extension.Routing
import Postvec.Queue.Jobs

/-!
# The write-back of a group

A group of claimed jobs comes back from the network with one outcome for each text. `apply_group`
writes its vectors and NULLs and ends its jobs, in one transaction. When that transaction aborts,
the worker applies the jobs one by one (`apply_rows`), each in a transaction of its own, and
releases those whose own transaction aborts too (`release_failed_group`). An aborted transaction
leaves the database as it was, whatever raised; which ones abort is left open.

Left out: the texts (they are read before), the error texts and times kept in a job, and
`pg_notify`.
-/

namespace Postvec.WriteBack

/-! ## 1. Groups and tables -/

/-- A job whose source is NULL or gone. -/
structure NullJob (K : Type*) where
  id : Nat
  pk : K
deriving DecidableEq

/-- A job that carried a text; `chunk` is set for a recursive entry. -/
structure EmbedJob (K : Type*) where
  id : Nat
  pk : K
  chunk : Option Nat
  attempts : Nat
deriving DecidableEq

inductive ItemOutcome (V : Type*) where
  | ok (v : V)
  | dead
  | retry
deriving DecidableEq

/-- A group: the outcomes have the length of the embed jobs, one for each. -/
structure Group (K V : Type*) where
  nulls : List (NullJob K)
  embeds : List (EmbedJob K × ItemOutcome V)

structure Applied where
  done : Nat
  nulled : Nat
  retried : Nat
  dead : Nat
deriving DecidableEq, Repr

def Applied.zero : Applied := ⟨0, 0, 0, 0⟩

def Applied.add (a b : Applied) : Applied :=
  ⟨a.done + b.done, a.nulled + b.nulled, a.retried + b.retried, a.dead + b.dead⟩

def Applied.total (a : Applied) : Nat := a.done + a.nulled + a.retried + a.dead

/-- A row a vector is written to: of the source table, or of the destination table of a recursive
entry, which is addressed by chunk identity and source key together. -/
inductive Target (K : Type*) where
  | row (pk : K)
  | chunk (cid : Nat) (pk : K)
deriving DecidableEq

/-- The vector columns of a row. -/
abbrev Cells (V : Type*) := Text → Option V

/-- What a write-back reads and writes. -/
structure Store (K V N : Type*) where
  cat : Catalog N
  queue : Queue K
  cells : Target K → Option (Cells V)

/-- `UPDATE .. FROM` uses one of the rows a target row is joined to; which one is left open. -/
structure Pick (V : Type*) where
  choose : List V → Option V
  mem : ∀ l v, choose l = some v → v ∈ l
  total : ∀ l, l ≠ [] → (choose l).isSome

/-- The settings of the write-back: `postvec.max_retries`, the length of a vector, and the choice of
`UPDATE .. FROM`. -/
structure Config (V : Type*) where
  maxRetries : Nat
  width : V → Nat
  pick : Pick V

variable {K V N : Type*} [DecidableEq K]

def Group.ids (g : Group K V) : List Nat := g.nulls.map NullJob.id ++ g.embeds.map (·.1.id)

def Cells.set (c : Text) (v : Option V) (r : Cells V) : Cells V :=
  fun c' => if c' = c then v else r c'

/-- `delete_jobs`. -/
def deleteIds (q : Queue K) (ids : List Nat) : Queue K := q.deleteJobs fun j => ids.contains j.id

/-- `move_to_dead`. -/
def deadIds (q : Queue K) (ids : List Nat) : Queue K := q.moveToDead fun j => ids.contains j.id

/-- The equality test of targets, named once as that of texts is. -/
instance lawfulBEqTarget : LawfulBEq (Target K) := inferInstance

/-! ## 2. The statements -/

/-- `UPDATE .. SET cols = NULL WHERE pk = ANY(..)`, on the source table. -/
def nullRows (cols : List Text) (pks : List K) (cells : Target K → Option (Cells V)) :
    Target K → Option (Cells V) :=
  fun t => (cells t).map fun r =>
    if t ∈ pks.map Target.row then fun c => if c ∈ cols then none else r c else r

/-- `UPDATE .. SET col = d.v FROM d`, each vector of `d` joined to its target. -/
def updateFrom (p : Pick V) (col : Text) (d : List (Target K × V))
    (cells : Target K → Option (Cells V)) : Target K → Option (Cells V) :=
  fun t => (cells t).map fun r =>
    match p.choose ((d.filter fun x => x.1 = t).map Prod.snd) with
    | none => r
    | some v => r.set col (some v)

def EmbedJob.row (j : EmbedJob K) : Target K := .row j.pk

def EmbedJob.chunkRow (j : EmbedJob K) : Target K := .chunk (j.chunk.getD 0) j.pk

def writeVectors (p : Pick V) (col : Text) (oks : List (EmbedJob K × V))
    (cells : Target K → Option (Cells V)) : Target K → Option (Cells V) :=
  updateFrom p col (oks.map fun j => (j.1.row, j.2)) cells

/-- The vectors of the chunks that are still there, and how many rows were written. -/
def writeChunkVectors (p : Pick V) (col : Text) (oks : List (EmbedJob K × V))
    (cells : Target K → Option (Cells V)) : (Target K → Option (Cells V)) × Nat :=
  (updateFrom p col (oks.map fun j => (j.1.chunkRow, j.2)) cells,
    ((oks.map fun j => j.1.chunkRow).dedup.filter fun t => (cells t).isSome).length)

/-! ## 3. `apply_group` -/

/-- The loop over the outcomes: the queue, the counts, and the vectors to write. -/
structure Loop (K V : Type*) where
  queue : Queue K
  applied : Applied
  oks : List (EmbedJob K × V)

/-- One outcome; vectors of the wrong length, permanent failures and exhausted retries are dead. -/
def applyOutcome (C : Config V) (dim : Nat) (l : Loop K V) (job : EmbedJob K × ItemOutcome V) :
    Loop K V :=
  let j := job.1
  match job.2 with
  | .ok v =>
    if C.width v ≠ dim then
      { l with queue := deadIds l.queue [j.id], applied := l.applied.add ⟨0, 0, 0, 1⟩ }
    else { l with oks := l.oks ++ [(j, v)] }
  | .dead => { l with queue := deadIds l.queue [j.id], applied := l.applied.add ⟨0, 0, 0, 1⟩ }
  | .retry =>
    if j.attempts > C.maxRetries then
      { l with queue := deadIds l.queue [j.id], applied := l.applied.add ⟨0, 0, 0, 1⟩ }
    else
      { l with queue := l.queue.unclaimJobs [j.id] false,
               applied := l.applied.add ⟨0, 0, 1, 0⟩ }

/-- The vectors of the loop are written and their jobs finished. -/
def writeOks (C : Config V) (s : Store K V N) (recursive : Bool) (col : Text) (l : Loop K V) :
    Store K V N × Applied :=
  if l.oks.isEmpty then ({ s with queue := l.queue }, l.applied)
  else
    let queue := deleteIds l.queue (l.oks.map (·.1.id))
    if recursive then
      -- no row for a chunk is an obsolete success: the job ends, but only writes count
      let (cells, written) := writeChunkVectors C.pick col l.oks s.cells
      ({ s with queue, cells }, l.applied.add ⟨written, 0, 0, 0⟩)
    else
      ({ s with queue, cells := writeVectors C.pick col l.oks s.cells },
        l.applied.add ⟨l.oks.length, 0, 0, 0⟩)

/-- `missing_dependency_locked(&[])` finds nothing missing. -/
def intact (c : Catalog N) (e : RoutedEntry N) : Bool := c.sound && c.has e.vectorColumn

/-- Only the column of the live migration is gone. -/
def columnGone (c : Catalog N) (e : RoutedEntry N) : Bool :=
  (embedRouting c e).vectorColumn ≠ e.vectorColumn && !c.has (embedRouting c e).vectorColumn

/-- `fail_migration` for the migration the routing names. -/
def failRouted (c : Catalog N) (e : RoutedEntry N) : Catalog N :=
  match (embedRouting c e).migrationId with
  | some id => c.failMigration id
  | none => c

/-- The columns a NULL source empties: while migrating both, so that neither goes stale. -/
def nullColumns (c : Catalog N) (e : RoutedEntry N) : List Text :=
  if (embedRouting c e).vectorColumn ≠ e.vectorColumn then
    [e.vectorColumn, (embedRouting c e).vectorColumn]
  else [e.vectorColumn]

variable [DecidableEq N]

def applyGroup (C : Config V) (expected : EmbedRouting N) (s : Store K V N) (g : Group K V) :
    Store K V N × Applied :=
  match s.cat.entry with
  | none =>
    -- the registry row vanished
    ({ s with queue := deleteIds s.queue g.ids }, .zero)
  | some e =>
    if e.state = .disabled then ({ s with queue := deleteIds s.queue g.ids }, .zero)
    else if !intact s.cat e then
      -- `quarantine_entry`, which also purges the jobs of the entry
      ({ s with cat := s.cat.quarantine, queue := s.queue.deleteJobs fun _ => true }, .zero)
    else
      let fresh := embedRouting s.cat e
      if columnGone s.cat e then
        ({ s with cat := failRouted s.cat e, queue := s.queue.unclaimJobs g.ids false },
          ⟨0, 0, g.ids.length, 0⟩)
      else
        let s₁ : Store K V N := { s with
          queue := deleteIds s.queue (g.nulls.map NullJob.id)
          cells := nullRows (nullColumns s.cat e) (g.nulls.map NullJob.pk) s.cells }
        let nulled : Applied := ⟨0, g.nulls.length, 0, 0⟩
        if !g.embeds.isEmpty && decide (fresh ≠ expected) then
          -- the vectors were made for another model or column
          let ids := g.embeds.map (·.1.id)
          ({ s₁ with queue := s₁.queue.unclaimJobs ids false },
            nulled.add ⟨0, 0, ids.length, 0⟩)
        else
          writeOks C s₁ e.recursive fresh.vectorColumn
            (g.embeds.foldl (applyOutcome C fresh.dim) ⟨s₁.queue, nulled, []⟩)

/-! ## 4. The fallback -/

/-- `release_failed_group`: exhausted jobs are dead, the others are released. -/
def releaseFailedGroup (C : Config V) (s : Store K V N) (ids : List Nat) : Store K V N × Applied :=
  let mine := s.queue.jobs.filter fun j => ids.contains j.id
  let exhausted := (mine.filter fun j => j.attempts > C.maxRetries).map Job.id
  let rest := (mine.filter fun j => !decide (j.attempts > C.maxRetries)).map Job.id
  ({ s with queue := (deadIds s.queue exhausted).unclaimJobs rest false },
    ⟨0, 0, rest.length, exhausted.length⟩)

/-- The jobs of the group as groups of one, with their ids. -/
def Group.singles (g : Group K V) : List (Nat × Group K V) :=
  g.nulls.map (fun j => (j.id, ⟨[j], []⟩)) ++ g.embeds.map (fun j => (j.1.id, ⟨[], [j]⟩))

/-- The loop of `apply_rows`; `apply` and `release` each run in a transaction of their own. -/
def applyRows (apply : Store K V N → Group K V → Option (Store K V N × Applied))
    (release : Store K V N → Nat → Store K V N × Applied) (s : Store K V N) (total : Applied) :
    List (Nat × Group K V) → Store K V N × Applied
  | [] => (s, total)
  | (id, one) :: rest =>
    let (s', applied) := (apply s one).getD (release s id)
    applyRows apply release s' (total.add applied) rest

/-- The write-back phase of the worker: `aborts` says that the transaction of the group aborts,
`fails` which jobs' own transactions do. -/
def writeBack (C : Config V) (expected : EmbedRouting N) (aborts : Bool) (fails : Nat → Bool)
    (s : Store K V N) (g : Group K V) : Store K V N × Applied :=
  if aborts then
    applyRows
      (fun s one => if one.ids.any fails then none else some (applyGroup C expected s one))
      (fun s id => releaseFailedGroup C s [id])
      s .zero g.singles
  else applyGroup C expected s g

end Postvec.WriteBack
