import Postvec.Extension.Column
import Postvec.Source.Chunks
import Postvec.Source.Docs

/-!
# The extension's chunk mode: triggers, worker and machine

A recursive entry splits each document into chunks and keeps one vector beside each chunk. The
triggers of `create_chunk_triggers`, in both modes, the refresh that splits a document and replaces
its chunks in one transaction that holds the source row `FOR SHARE`, the two phases of
`read_chunk_items`, and write-back, release and reclaim; `ChunkSys.step` is the machine of all of
them with open writer transactions.

Which jobs are due or stale and how inference answers is chosen by the action. A transaction that
does not commit leaves nothing: a refresh that fails, or a crash while claiming, is no step at all.
A worker statement on a row that an open transaction has written or a job it has deleted has to
wait, so the step is not taken now. A write-back into a chunk that an open transaction has deleted
would wait and then find nothing; in the machine it writes first, and the chunk is gone at the
commit.

Left out: a vanished or quarantined entry, a refresh job on a column-mode entry, and a key that does
not cast to the key's type.
-/

namespace Postvec

open Machine

/-! ## 1. The entry and its triggers -/

/-- A recursive entry: its format, the model's width, and the limits. -/
structure ChunkEntry (δ T C X V : Type*) extends DocFormat δ T C X V where
  docBytes : T → Nat
  /-- `chunking::MAX_DOCUMENT_BYTES` -/
  maxDocument : Nat
  bytes : X → Nat
  width : V → Nat
  dim : Nat
  itemCap : Nat
  budget : Nat
  batchSize : Nat
  maxRetries : Nat
  mode : TriggerMode

variable {K δ T C X V : Type*}

/-- `chunk_inflight_max` -/
def ChunkEntry.chunkInflightMax (E : ChunkEntry δ T C X V) : Nat := max (E.batchSize * 8) 1000

/-- `op = 'embed'` -/
def embedJob (s : Slot K) (_claimed : Bool) : Bool := decide (s.op = .embed)

/-- `NOT (op = 'refresh' AND claimed_at IS NOT NULL)` -/
def notClaimedRefresh (s : Slot K) (claimed : Bool) : Bool :=
  !(decide (s.op = .refresh) && claimed)

/-- The deletions of a chunk trigger for the documents `p`: chunks, some of the jobs, dead jobs. -/
def purgeDocs (p : K → Bool) (jobs : Slot K → Bool → Bool) : List (Cmd K) :=
  [.cutChunks p, .deleteJobs fun s claimed => p s.pk && jobs s claimed, .deleteDead fun s => p s.pk]

/-- `INSERT ... 'refresh' ... WHERE source IS NOT NULL`. -/
def enqueueRefresh (source : δ → Option T) (k : K) (d : δ) : List (Cmd K) :=
  if (source d).isSome then [.enqueue (refreshSlot k)] else []

/-- `trg_chunk_ins` -/
def trgChunkIns (source : δ → Option T) (rows : List (K × δ)) : List (Cmd K) :=
  rows.flatMap fun r => enqueueRefresh source r.1 r.2

variable [DecidableEq K] [BEq δ]

/-- `trg_chunk_pk`, `FOR EACH ROW WHEN (key changed)`. -/
def trgChunkPk (source : δ → Option T) (i : Image K δ) : List (Cmd K) :=
  if i.oldKey = i.newKey then []
  else purgeDocs (fun k => decide (k = i.oldKey)) notClaimedRefresh ++
    enqueueRefresh source i.newKey i.newDoc

/-- `trg_chunk_upd` in row mode, `FOR EACH ROW WHEN (watched column IS DISTINCT FROM the old)`. -/
def trgChunkUpdRow (source : δ → Option T) (i : Image K δ) : List (Cmd K) :=
  if i.newDoc == i.oldDoc then []
  else purgeDocs (fun k => decide (k = i.oldKey)) embedJob ++
    enqueueRefresh source i.newKey i.newDoc

/-- `trg_chunk_upd` in statement mode. -/
def trgChunkUpdStmt (source : δ → Option T) (imgs : List (Image K δ)) : List (Cmd K) :=
  purgeDocs (fun k => ((changedDocs imgs).map Prod.fst).contains k) embedJob ++
    (changedDocs imgs).flatMap fun d => enqueueRefresh source d.1 d.2

/-- `trg_chunk_del` -/
def trgChunkDel (mode : TriggerMode) (ds : List (K × δ)) : List (Cmd K) :=
  match mode with
  | .row => ds.flatMap fun d => purgeDocs (fun k => decide (k = d.1)) notClaimedRefresh
  | .statement => purgeDocs (fun k => (ds.map Prod.fst).contains k) notClaimedRefresh

/-- `create_chunk_triggers` and `trg_truncate` of a recursive entry. The row triggers of one row
    fire in the order of their names, and before the statement triggers. -/
def chunkTriggers (source : δ → Option T) (mode : TriggerMode) : Triggers K δ where
  onInsert := trgChunkIns source
  onUpdate := fun imgs =>
    match mode with
    | .row => imgs.flatMap fun i => trgChunkPk source i ++ trgChunkUpdRow source i
    | .statement => imgs.flatMap (trgChunkPk source) ++ trgChunkUpdStmt source imgs
  onDelete := trgChunkDel mode
  onTruncate := purgeDocs (fun _ => true) notClaimedRefresh

/-! ## 2. The machine's state -/

/-- A claimed child job within the budget, with the length it was admitted at. -/
structure Admitted (K : Type*) where
  job : Job K
  cid : Nat
  len : Nat

/-- A claimed child job with its rendered text (`JobItem` with a chunk id). -/
structure ChunkItem (K X : Type*) where
  id : Nat
  pk : K
  cid : Nat
  attempts : Nat
  text : X

/-- The database, the destination table, the claiming transaction between its two phases, and the
    worker's group in flight. -/
structure ChunkSys (K δ C X V : Type*) where
  db : Db K δ Unit
  dest : Destination K C V
  admitted : List (Admitted K)
  inflight : List (ChunkItem K X)

inductive ChunkAct (K δ : Type*) where
  | writer (w : WriterAct K δ)
  | refresh (id : Nat)
  | claimChunks (ids : List Nat)
  | renderChunks
  | applyGroup (jobs : List (Nat × ItemOutcome))
  | releaseFailed (ids : List Nat)
  | reclaimStale (ids : List Nat)
  | crash

/-- A writer's step; a commit also deletes the chunks the triggers have deleted. -/
def ChunkSys.writer (E : ChunkEntry δ T C X V) (s : ChunkSys K δ C X V) (w : WriterAct K δ) :
    Option (ChunkSys K δ C X V) :=
  (s.db.writer (chunkTriggers E.source E.mode) w).map fun db =>
    { s with
      db
      dest :=
        match w with
        | .commit x =>
          match s.db.txns.get x with
          | some t => s.dest.delete t.cut
          | none => s.dest
        | _ => s.dest }

/-! ## 3. Refreshing a document -/

/-- `purge_document` on the queue: the document's child jobs and dead jobs. -/
def purgeDocument (q : Queue K) (k : K) : Queue K :=
  (q.deleteJobs fun j => decide (j.slot.pk = k) && decide (j.slot.op = .embed)).deleteDead
    fun j => decide (j.slot.pk = k)

/-- The rest of `process_one_refresh` once the document has been split: its chunks are replaced and
    each new chunk gets a child job. -/
def replaceChunks (s : ChunkSys K δ C X V) (q : Queue K) (id : Nat) (k : K) (ps : List C) :
    ChunkSys K δ C X V :=
  let dest := s.dest.delete fun k' => decide (k' = k)
  { s with
    db := { s.db with
      queue := ((purgeDocument q k).insertAll
        ((dest.newIds ps).map fun cid => (chunkSlot k cid, 0))).deleteJobs fun j => j.id == id
      nextXid := s.db.nextXid + 1 }
    dest := dest.insert k ps }

/-- `process_one_refresh` for the job `id`. -/
def processOneRefresh (E : ChunkEntry δ T C X V) (s : ChunkSys K δ C X V) (id : Nat) :
    Option (ChunkSys K δ C X V) :=
  match s.db.queue.jobs.find? fun j => j.id == id with
  | none => none
  | some j =>
    let k := j.slot.pk
    let q := s.db.queue.claim fun j => j.id == id
    let dead := { s with db := { s.db with queue := q.moveToDead fun j => j.id == id } }
    if j.claimed || decide (j.slot.op ≠ .refresh) || s.db.jobLocked id || s.db.truncated ||
        s.db.shareBlocked k ||
        decide (E.chunkInflightMax ≤
          (s.db.queue.jobs.filter fun j => decide (j.slot.op = .embed)).length) then none
    else
      match (s.db.rows.get k).bind fun r => E.source r.doc with
      | none => some (replaceChunks s q id k [])
      | some t =>
        if E.docBytes t > E.maxDocument then some dead
        else
          match E.split t with
          | none => some dead
          | some ps => some (replaceChunks s q id k ps)

/-! ## 4. Claiming child jobs -/

/-- `budget.max(1)` -/
def ChunkEntry.batchBudget (E : ChunkEntry δ T C X V) : Nat := max E.budget 1

/-- `item_cap.clamp(1, budget)` -/
def ChunkEntry.cap (E : ChunkEntry δ T C X V) : Nat := min (max E.itemCap 1) E.batchBudget

/-- What phase 1 of `read_chunk_items` decides for a claimed job. -/
inductive ChunkRead where
  | malformed
  | mismatched
  | obsolete
  | tooLarge
  | deferred
  | admitted (cid len : Nat)
deriving DecidableEq, Repr

/-- The rendered text of a chunk, joined to its source row. -/
def renderChunk (E : ChunkEntry δ T C X V) (rows : Table K (Row δ Unit)) (c : Chunk K C V) :
    Option X :=
  (rows.get c.pk).bind fun r => E.render r.doc c.piece

/-- Phase 1: identity checks and lengths, then admission in claim order. -/
def readChunks (E : ChunkEntry δ T C X V) (rows : Table K (Row δ Unit)) (dest : Destination K C V)
    (remaining : Nat) (closed : Bool) : List (Job K) → List (Job K × ChunkRead)
  | [] => []
  | j :: js =>
    match j.slot.chunk with
    | none => (j, .malformed) :: readChunks E rows dest remaining closed js
    | some cid =>
      match dest.find cid with
      | none => (j, .obsolete) :: readChunks E rows dest remaining closed js
      | some c =>
        if c.pk ≠ j.slot.pk then (j, .mismatched) :: readChunks E rows dest remaining closed js
        else
          match renderChunk E rows c with
          | none => (j, .obsolete) :: readChunks E rows dest remaining closed js
          | some x =>
            if E.bytes x > E.cap then
              (j, .tooLarge) :: readChunks E rows dest remaining closed js
            else if closed = false ∧ E.bytes x ≤ remaining then
              (j, .admitted cid (E.bytes x)) ::
                readChunks E rows dest (remaining - E.bytes x) closed js
            else (j, .deferred) :: readChunks E rows dest remaining true js

/-- The ids of the claimed jobs with a given phase 1 result. -/
def readIds (reads : List (Job K × ChunkRead)) (p : ChunkRead → Bool) : List Nat :=
  (reads.filter fun r => p r.2).map fun r => r.1.id

def Admitted.ofRead : Job K × ChunkRead → Option (Admitted K)
  | (j, .admitted cid len) => some ⟨j, cid, len⟩
  | _ => none

/-- The jobs `move_to_dead` gets from phase 1. -/
def ChunkRead.isDead (r : ChunkRead) : Bool :=
  decide (r = .malformed) || decide (r = .mismatched) || decide (r = .tooLarge)

/-- `claim_batch` and phase 1 of `read_chunk_items`. -/
def claimChunks (E : ChunkEntry δ T C X V) (s : ChunkSys K δ C X V) (ids : List Nat) :
    Option (ChunkSys K δ C X V) :=
  let q := s.db.queue.claim fun j => ids.contains j.id
  let reads := readChunks E s.db.rows s.dest E.batchBudget false
    (q.jobs.filter fun j => ids.contains j.id)
  if s.inflight.isEmpty && s.admitted.isEmpty && s.db.endable ids &&
      ids.all fun i => s.db.queue.jobs.any fun j =>
        decide (j.id = i) && !j.claimed && decide (j.slot.op = .embed) then
    some { s with
      db := { s.db with
        queue := ((q.moveToDead fun j => (readIds reads ChunkRead.isDead).contains j.id).deleteJobs
          fun j => (readIds reads fun r => decide (r = .obsolete)).contains j.id).unclaimJobs
            (readIds reads fun r => decide (r = .deferred)) true }
      admitted := reads.filterMap Admitted.ofRead }
  else none

/-- Phase 2 for one admitted job: the text, if it is no longer than admitted. -/
def renderAdmitted (E : ChunkEntry δ T C X V) (rows : Table K (Row δ Unit))
    (dest : Destination K C V) (a : Admitted K) : Option (ChunkItem K X) :=
  ((dest.find a.cid).bind (renderChunk E rows)).bind fun x =>
    if E.bytes x ≤ a.len then some ⟨a.job.id, a.job.slot.pk, a.cid, a.job.attempts, x⟩ else none

/-- Phase 2 of `read_chunk_items`, and the commit of the claim: jobs whose chunk vanished, or whose
    text grew, are deleted. -/
def renderChunks (E : ChunkEntry δ T C X V) (s : ChunkSys K δ C X V) :
    Option (ChunkSys K δ C X V) :=
  let vanished := (s.admitted.filter fun a => (renderAdmitted E s.db.rows s.dest a).isNone).map
    fun a => a.job.id
  if s.db.truncated || vanished.any s.db.jobLocked then none
  else
    some { s with
      db := { s.db with queue := s.db.queue.deleteJobs fun j => vanished.contains j.id }
      admitted := []
      inflight := s.admitted.filterMap (renderAdmitted E s.db.rows s.dest) }

/-! ## 5. Write-back -/

/-- `write_chunk_vectors` for one chunk: keyed by its id and the queued source key. -/
def writeChunkVector (s : ChunkSys K δ C X V) (cid : Nat) (k : K) (v : V) : ChunkSys K δ C X V :=
  { s with
    db := { s.db with nextXid := s.db.nextXid + 1 }
    dest := s.dest.write (fun c => c.cid == cid && decide (c.pk = k)) (some v) }

/-- The end of a job in the queue: deleted, dead-lettered or back to pending. -/
def ChunkSys.endJob (s : ChunkSys K δ C X V) (id : Nat) (q : Queue K) : ChunkSys K δ C X V :=
  { s with
    db := { s.db with queue := q }
    inflight := s.inflight.filter fun it => it.id != id }

/-- `apply_group` on one job of a recursive entry's group. -/
def applyChunk (E : ChunkEntry δ T C X V) (s : ChunkSys K δ C X V) (id : Nat) (o : ItemOutcome) :
    Option (ChunkSys K δ C X V) :=
  match s.inflight.find? fun it => it.id == id with
  | none => none
  | some it =>
    let finished : Job K → Bool := fun j => j.id == it.id
    if !s.db.endable [id] then none
    else
      match o with
      | .ok =>
        if E.width (E.embed it.text) ≠ E.dim then
          some (s.endJob id (s.db.queue.moveToDead finished))
        else
          some ((writeChunkVector s it.cid it.pk (E.embed it.text)).endJob id
            (s.db.queue.deleteJobs finished))
      | .dead => some (s.endJob id (s.db.queue.moveToDead finished))
      | .retry =>
        if it.attempts > E.maxRetries then some (s.endJob id (s.db.queue.moveToDead finished))
        else some (s.endJob id (s.db.queue.unclaimJobs [it.id] false))

/-- `apply_group` on the given jobs of the group. -/
def applyChunks (E : ChunkEntry δ T C X V) (s : ChunkSys K δ C X V) :
    List (Nat × ItemOutcome) → Option (ChunkSys K δ C X V)
  | [] => some s
  | (id, o) :: jobs =>
    match applyChunk E s id o with
    | none => none
    | some s' => applyChunks E s' jobs

/-- `release_failed_group`: the write-back of these jobs was rejected. -/
def releaseChunks (E : ChunkEntry δ T C X V) (s : ChunkSys K δ C X V) (ids : List Nat) :
    Option (ChunkSys K δ C X V) :=
  if (ids.all fun i => s.inflight.any fun it => it.id == i) && s.db.endable ids then
    some { s with
      db := { s.db with queue := releaseJobs s.db.queue E.maxRetries ids }
      inflight := s.inflight.filter fun it => !ids.contains it.id }
  else none

/-- `reclaim_stale`: claims whose visibility timeout expired. -/
def reclaimChunks (E : ChunkEntry δ T C X V) (s : ChunkSys K δ C X V) (ids : List Nat) :
    Option (ChunkSys K δ C X V) :=
  if s.inflight.isEmpty && s.admitted.isEmpty && s.db.endable ids &&
      ids.all fun i => s.db.queue.jobs.any fun j => decide (j.id = i) && j.claimed then
    some { s with db := { s.db with queue := releaseJobs s.db.queue E.maxRetries ids } }
  else none

/-- One step of the machine. A crash loses the group in flight, and its jobs stay claimed; while a
    claim is being made a crash undoes it. -/
def ChunkSys.step (E : ChunkEntry δ T C X V) (s : ChunkSys K δ C X V) :
    ChunkAct K δ → Option (ChunkSys K δ C X V)
  | .writer w => s.writer E w
  | .refresh id => processOneRefresh E s id
  | .claimChunks ids => claimChunks E s ids
  | .renderChunks => renderChunks E s
  | .applyGroup jobs => applyChunks E s jobs
  | .releaseFailed ids => releaseChunks E s ids
  | .reclaimStale ids => reclaimChunks E s ids
  | .crash => if s.admitted.isEmpty then some { s with inflight := [] } else none

end Postvec
