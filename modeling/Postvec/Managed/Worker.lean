import Postvec.Source.OpenTxn

/-!
# The managed leader's embed step

`worker::step` claims due embed jobs of one entry and reads their texts with the version of what it
read, infers without a transaction, and writes each vector back if that version is still current
(`write_back`). This file has the parts that do not depend on where vectors live, and one lemma for
what each leaves: `release_moved`, `claimJobs_spec`, `writeBackOne_cases`. `Stands` is what a key's
row can rely on: a dead job, or a job that does not end unchecked. Some of these an open transaction
may have deleted and not committed yet (`Withheld`).

Times are left out as in `Queue/Jobs.lean`, as are error texts and the counters of
`worker_heartbeat`. A write the table rejects (a raising trigger, a `CHECK`, a lock timeout) is
part of the answer for its job: `write_back` first tries the batch as a whole, and when that fails
row by row, which releases the rejected ones.
-/

namespace Postvec.Managed

open Machine List

/-! ## 1. How a job ends -/

/-- `ITEM_CAP` -/
def itemCap : Nat := 1024 * 1024

/-- `BATCH_CAP` -/
def batchCap : Nat := 8 * 1024 * 1024

/-- A job whose claims reach this number is not retried. -/
def maxAttempts : Nat := 5

variable {K δ P T V ν : Type*}

/-- `finish`: delete the job, or move it to `jobs_dead`. -/
def finish (q : Queue K) (id : Nat) (dead : Bool) : Queue K :=
  if dead then q.moveToDead fun j => j.id == id else q.deleteJobs fun j => j.id == id

variable [DecidableEq K]

/-- `release`: return the job to pending, with backoff or with its attempt refunded. With backoff a
    job whose attempts are used up is finished dead instead. -/
def release (q : Queue K) (id : Nat) (backoff : Bool) : Queue K :=
  if backoff then releaseJobs q (maxAttempts - 1) [id] else q.unclaimJobs [id] true

/-- A release waits for a transaction that has deleted the job, or that holds the dedup key the job
    goes back to. -/
def releaseWaits (db : Db K δ P) (id : Nat) (backoff : Bool) : Bool :=
  db.jobLocked id || db.queue.jobs.any fun j =>
    j.id == id && !(backoff && decide (maxAttempts ≤ j.attempts)) && db.slotLocked j.slot

def tryRelease (db : Db K δ P) (id : Nat) (backoff : Bool) : Option (Queue K) :=
  if releaseWaits db id backoff then none else some (release db.queue id backoff)

def tryFinish (db : Db K δ P) (id : Nat) (dead : Bool) : Option (Queue K) :=
  if db.jobLocked id then none else some (finish db.queue id dead)

/-- The expiry at the start of a step, over the stale claims: those with their attempts used up are
    dead, the others go back with the attempts they have. -/
def expire (db : Db K δ P) : List Nat → Option (Db K δ P)
  | [] => some db
  | id :: ids =>
    match tryRelease db id true with
    | none => none
    | some queue => expire { db with queue } ids

/-! ## 2. Claiming and reading -/

/-- A claimed job as the step holds it in memory (`Job`), with the version of what it read. -/
structure Item (K T ν : Type*) where
  id : Nat
  pk : K
  chunk : Option Nat
  text : Option T
  version : Option ν
  oversized : Bool
deriving DecidableEq, Repr

/-- The `SELECT` for one job: `read` is the text and the version of what is there, if it is; the
    text comes back only within `itemCap`. -/
def Item.ofRead (bytes : T → Nat) (id : Nat) (s : Slot K) : Option (Option T × ν) → Item K T ν
  | none => ⟨id, s.pk, s.chunk, none, none, false⟩
  | some (text, version) =>
    let large := text.any fun t => decide (bytes t > itemCap)
    ⟨id, s.pk, s.chunk, if large then none else text, some version, large⟩

/-- What the claim loop does with a job. -/
inductive Fate (K T ν : Type*) where
  | malformed
  | overBudget
  | taken (it : Item K T ν)

/-- The loop over the claimed jobs. The bytes of a job over the budget stay counted, so all later
    jobs go back too. -/
def claimLoop (bytes : T → Nat) (recursive : Bool) (read : Slot K → Option (Option T × ν)) :
    Nat → List (Job K) → List (Job K × Fate K T ν)
  | _, [] => []
  | used, j :: js =>
    if recursive ≠ j.slot.chunk.isSome then
      (j, .malformed) :: claimLoop bytes recursive read used js
    else
      let it := Item.ofRead bytes j.id j.slot (read j.slot)
      let used' := used + (it.text.map bytes).getD 0
      if used' > batchCap then (j, .overBudget) :: claimLoop bytes recursive read used' js
      else (j, .taken it) :: claimLoop bytes recursive read used' js

def Fate.isMalformed : Fate K T ν → Bool
  | .malformed => true
  | _ => false

def Fate.isOverBudget : Fate K T ν → Bool
  | .overBudget => true
  | _ => false

def Fate.item? : Fate K T ν → Option (Item K T ν)
  | .taken it => some it
  | _ => none

/-- The claim: at most `batchSize` due embed jobs, skipping locked ones; malformed jobs are finished
    dead and those over the budget released with a refund. -/
def claimJobs (bytes : T → Nat) (batchSize : Nat) (recursive : Bool)
    (read : Slot K → Option (Option T × ν)) (db : Db K δ P) (ids : List Nat) :
    Option (Queue K × List (Item K T ν)) :=
  let q := db.queue.claim fun j => ids.contains j.id
  let fates := claimLoop bytes recursive read 0 (q.jobs.filter fun j => ids.contains j.id)
  let malformed := (fates.filter fun f => f.2.isMalformed).map fun f => f.1.id
  let deferred := (fates.filter fun f => f.2.isOverBudget).map fun f => f.1
  if !db.truncated && decide (ids.length ≤ batchSize) &&
      (ids.all fun i => db.queue.jobs.any fun j => decide (j.id = i) && !j.claimed &&
        decide (j.slot.op = .embed) && !db.jobLocked i) &&
      deferred.all fun j => !db.slotLocked j.slot then
    some ((q.moveToDead fun j => malformed.contains j.id).unclaimJobs (deferred.map Job.id) true,
      fates.filterMap fun f => f.2.item?)
  else none

/-! ## 3. Writing back -/

/-- A model as the worker uses it: its vectors, their length, and the length the column takes. -/
structure Model (T V : Type*) where
  embed : T → V
  width : V → Nat
  dim : Nat

/-- What inference answered for a text; `vector` is the model's vector of it. -/
inductive Outcome where
  | vector
  | retry
  | dead
  | failed
deriving DecidableEq, Repr

/-- The outcome for a job, and whether the table rejects the write. -/
structure Answer where
  outcome : Outcome
  rejected : Bool
deriving DecidableEq, Repr

/-- What `write_back` decides before it looks at the target. -/
inductive Ending (V : Type*) where
  | skip
  | dead
  | release (backoff : Bool)
  | write (v : Option V)

/-- `changed` says that the routing is no longer the one at claim time. -/
def ending (M : Model T V) (q : Queue K) (changed : Bool) (it : Item K T ν) (o : Outcome) :
    Ending V :=
  if !(q.jobs.any fun j => j.id == it.id && j.claimed) then .skip
  else if changed then .release false
  else if it.oversized then .dead
  else
    match it.text with
    | none => .write none
    | some t =>
      match o with
      | .vector => if M.width (M.embed t) ≠ M.dim then .dead else .write (some (M.embed t))
      | .retry => .release true
      | .dead => .dead
      | .failed => .dead

/-- `write_back` on one job: the queue it leaves, and the vector or NULL it writes, if it writes.
    `current` is the version of the target, `blocked` that an open transaction has written it. A job
    that read nothing is finished without a look at the target. -/
def writeBackOne [DecidableEq ν] (M : Model T V) (db : Db K δ P) (changed : Bool)
    (current : Option ν) (blocked : Bool) (it : Item K T ν) (a : Answer) :
    Option (Queue K × Option (Option V)) :=
  match ending M db.queue changed it a.outcome with
  | .skip => some (db.queue, none)
  | .dead => (tryFinish db it.id true).map fun q => (q, none)
  | .release backoff => (tryRelease db it.id backoff).map fun q => (q, none)
  | .write v =>
    match it.version with
    | none => (tryFinish db it.id false).map fun q => (q, none)
    | some version =>
      if current ≠ some version then (tryRelease db it.id false).map fun q => (q, none)
      else if a.rejected then (tryRelease db it.id true).map fun q => (q, none)
      else if blocked then none
      else (tryFinish db it.id false).map fun q => (q, some v)


/-! ## 4. What a key can rely on -/

/-- A dead job of the key, or a job of it that is `sure`; some jobs and dead jobs are withheld. -/
def Stands (q : Queue K) (sure : Nat → Prop) (dropped : List Nat) (droppedDead : List (Job K))
    (k : K) : Prop :=
  (∃ d ∈ q.dead, d.slot.pk = k ∧ d ∉ droppedDead) ∨
    ∃ j ∈ q.jobs, j.slot.pk = k ∧ j.id ∉ dropped ∧ sure j.id

/-- Jobs and dead jobs that an open transaction has deleted: their ids are old, the dead ones' are
    not live again, and the dedup key of a pending one is locked. -/
structure Withheld (db : Db K δ P) (dropped : List Nat) (droppedDead : List (Job K)) : Prop where
  issued : ∀ i ∈ dropped, i < db.queue.nextId
  buried : ∀ d ∈ droppedDead, d.id < db.queue.nextId ∧ ∀ j ∈ db.queue.jobs, j.id ≠ d.id
  locked : ∀ j ∈ db.queue.jobs, j.claimed = false → j.id ∈ dropped → db.slotLocked j.slot = true

theorem withheld_nil (db : Db K δ P) : Withheld db [] [] where
  issued := by simp
  buried := by simp
  locked := by simp

omit [DecidableEq K] in
theorem stands_nil_iff {q : Queue K} {sure : Nat → Prop} {k : K} (h : ∀ i, sure i) :
    Stands q sure [] [] k ↔ q.Dead k ∨ q.Live k := by
  simp [Stands, Queue.Dead, Queue.Live, h]

section Specs

variable {db : Db K δ P} {q q' : Queue K} {sure sure' : Nat → Prop} {dropped : List Nat}
  {droppedDead : List (Job K)} {k : K} {id : Nat} {backoff : Bool}

omit [DecidableEq K] in
/-- Standing is carried along job by job; dead jobs stay. -/
theorem Stands.carry (h : Stands q sure dropped droppedDead k) (hdead : ∀ d ∈ q.dead, d ∈ q'.dead)
    (hjobs : ∀ j ∈ q.jobs, j.slot.pk = k → j.id ∉ dropped → sure j.id →
      Stands q' sure' dropped droppedDead k) : Stands q' sure' dropped droppedDead k := by
  rcases h with ⟨d, hd, hk, hn⟩ | ⟨j, hj, hk, hn, hs⟩
  · exact .inl ⟨d, hdead d hd, hk, hn⟩
  · exact hjobs j hj hk hn hs

omit [DecidableEq K] in
theorem Stands.mono (h : Stands q sure dropped droppedDead k) (hs : ∀ i, sure i → sure' i) :
    Stands q sure' dropped droppedDead k :=
  h.carry (fun _ hd => hd) fun j hj hk hn hj' => .inr ⟨j, hj, hk, hn, hs _ hj'⟩

/-- A job that has died stands: its id was live, so no transaction has deleted it as a dead one. -/
theorem Withheld.of_dead (hw : Withheld db dropped droppedDead) {j d : Job K}
    (hj : j ∈ db.queue.jobs) (hd : d ∈ q'.dead) (hid : d.id = j.id) (hs : d.slot = j.slot) :
    Stands q' sure' dropped droppedDead j.slot.pk :=
  .inl ⟨d, hd, by rw [hs], fun hm => (hw.buried d hm).2 j hj hid.symm⟩

variable {j : Job K}

/-- A pending job stands if it is new or its dedup key is not locked. -/
theorem Withheld.of_pending (hw : Withheld db dropped droppedDead) (hj : j ∈ q'.jobs)
    (hp : j.claimed = false)
    (hold : db.queue.nextId ≤ j.id ∨ (j ∈ db.queue.jobs ∧ db.slotLocked j.slot = false))
    (hs : sure' j.id) : Stands q' sure' dropped droppedDead j.slot.pk := by
  refine .inr ⟨j, hj, rfl, fun hm => ?_, hs⟩
  rcases hold with hlt | ⟨hj', hl⟩
  · have := hw.issued _ hm
    omega
  · rw [hw.locked j hj' hp hm] at hl
    cases hl

/-- What an open transaction has deleted is withheld. -/
theorem withheld_of_drops {x : Nat} {t : Txn K δ P} (ht : db.txns.get x = some t)
    (h : t.Drops db.queue) : Withheld db t.dropped t.droppedDead where
  issued := h.issued
  buried := h.buried
  locked := by
    intro j hj hp hd
    refine Table.any_iff.mpr ⟨x, t, ht, ?_⟩
    simp only [Bool.or_eq_true, any_eq_true, Bool.and_eq_true, Bool.not_eq_true',
      decide_eq_true_eq, contains_iff_mem]
    exact .inr ⟨j, hj, ⟨hp, rfl⟩, hd⟩

/-! ## 5. The end of a job -/

theorem tryRelease_some (h : tryRelease db id backoff = some q) :
    releaseWaits db id backoff = false ∧ q = release db.queue id backoff := by
  obtain ⟨hr, e⟩ := Option.ite_none_left_eq_some.mp h
  exact ⟨Bool.not_eq_true _ ▸ hr, (Option.some.inj e).symm⟩

omit [DecidableEq K] in
theorem tryFinish_some {dead : Bool} (h : tryFinish db id dead = some q) :
    db.jobLocked id = false ∧ q = finish db.queue id dead := by
  obtain ⟨hl, e⟩ := Option.ite_none_left_eq_some.mp h
  exact ⟨Bool.not_eq_true _ ▸ hl, (Option.some.inj e).symm⟩

omit [DecidableEq K] in
theorem keeps_finish (q : Queue K) (id : Nat) (dead : Bool) :
    Queue.Keeps (· = id) q (finish q id dead) := by
  cases dead with
  | false => exact Queue.keeps_deleteJobs _ fun j _ hj => by simpa using hj
  | true => exact Queue.keeps_moveToDead _ fun j _ hj => by simpa using hj

theorem keeps_release (q : Queue K) (id : Nat) (backoff : Bool) :
    Queue.Keeps (· = id) q (release q id backoff) := by
  cases backoff with
  | false => exact Queue.keeps_unclaimJobs _ _ fun i hi => by simpa using hi
  | true => exact (keeps_releaseJobs q _ [id]).mono fun i hi => by simpa using hi

omit [DecidableEq K] in
theorem mem_dead_finish (hj : j ∈ q.jobs) (hid : j.id = id) :
    j ∈ (finish q id true).dead :=
  Queue.mem_dead_moveToDead.mpr (.inr ⟨hj, by simpa using hid⟩)

/-- **A released job** is dead, or its slot has a pending job that no transaction withholds. -/
theorem release_moved (hw : releaseWaits db id backoff = false)
    (hj : j ∈ db.queue.jobs) (hid : j.id = id) :
    j ∈ (release db.queue id backoff).dead ∨
      ∃ j' ∈ (release db.queue id backoff).jobs, j'.claimed = false ∧ j'.slot = j.slot ∧
        (db.queue.nextId ≤ j'.id ∨ (j' ∈ db.queue.jobs ∧ db.slotLocked j'.slot = false)) := by
  have hfree : ¬ (backoff = true ∧ maxAttempts ≤ j.attempts) → db.slotLocked j.slot = false := by
    intro hn
    simp only [releaseWaits, Bool.or_eq_false_iff, any_eq_false, Bool.and_eq_true,
      beq_iff_eq, Bool.not_eq_true', Bool.and_eq_false_iff, decide_eq_false_iff_not, not_and,
      Bool.not_eq_true] at hw
    refine hw.2 j hj ⟨hid, ?_⟩
    cases backoff with
    | false => exact .inl rfl
    | true => exact .inr fun ha => hn ⟨rfl, ha⟩
  cases backoff with
  | false =>
    obtain ⟨j', hj', hp, hs, h⟩ :=
      Queue.unclaim_pending (r := true) hj (mem_singleton.mpr hid)
    refine .inr ⟨j', hj', hp, hs, h.imp_right fun h => ⟨h, ?_⟩⟩
    rw [hs]
    exact hfree (by simp)
  | true =>
    rcases Queue.moved_unclaimJobs false _ [id] hj with hd | ⟨ha, -, j', hj', hp, hs, h⟩ | ⟨hn, -⟩
    · exact .inl hd
    · refine .inr ⟨j', hj', hp, hs, h.imp_right fun h => ⟨h, ?_⟩⟩
      rw [hs]
      refine hfree fun hn => ?_
      have ha' : ¬ j.attempts > maxAttempts - 1 := by simpa [hid] using ha
      simp only [maxAttempts] at ha' hn
      omega
    · exact absurd (mem_singleton.mpr hid) hn

/-- A release keeps what a key relies on; a pending job is always sure. -/
theorem Stands.release (h : Stands db.queue sure dropped droppedDead k)
    (hw : Withheld db dropped droppedDead) (hr : releaseWaits db id backoff = false)
    (hsure : ∀ i, sure i → sure' i)
    (hpend : ∀ j ∈ (Managed.release db.queue id backoff).jobs, j.claimed = false → sure' j.id) :
    Stands (Managed.release db.queue id backoff) sure' dropped droppedDead k := by
  have hk := keeps_release db.queue id backoff
  refine h.carry hk.dead fun j hj hjk hn hs => ?_
  by_cases hid : j.id = id
  · rw [← hjk]
    rcases release_moved hr hj hid with hd | ⟨j', hj', hp, hslot, hold⟩
    · exact hw.of_dead hj hd rfl rfl
    · rw [← hslot]
      exact hw.of_pending hj' hp hold (hpend j' hj' hp)
  · exact .inr ⟨j, hk.jobs j hj hid, hjk, hn, hsure _ hs⟩

/-- So does finishing a job dead. -/
theorem Stands.finish_dead (h : Stands db.queue sure dropped droppedDead k)
    (hw : Withheld db dropped droppedDead) (hsure : ∀ i, sure i → sure' i) :
    Stands (finish db.queue id true) sure' dropped droppedDead k := by
  have hk := keeps_finish db.queue id true
  refine h.carry hk.dead fun j hj hjk hn hs => ?_
  by_cases hid : j.id = id
  · rw [← hjk]
    exact hw.of_dead hj (mem_dead_finish hj hid) rfl rfl
  · exact .inr ⟨j, hk.jobs j hj hid, hjk, hn, hsure _ hs⟩

omit [DecidableEq K] in
/-- Finishing a job that was not relied on changes nothing; nor does it for another key. -/
theorem Stands.finish_done (h : Stands q sure dropped droppedDead k)
    (hid : ∀ j ∈ q.jobs, j.id = id → j.slot.pk = k → ¬ sure j.id)
    (hsure : ∀ i, sure i → sure' i) :
    Stands (finish q id false) sure' dropped droppedDead k := by
  have hk := keeps_finish q id false
  refine h.carry hk.dead fun j hj hjk hn hs => ?_
  by_cases e : j.id = id
  · exact absurd hs (hid j hj e hjk)
  · exact .inr ⟨j, hk.jobs j hj e, hjk, hn, hsure _ hs⟩

end Specs

/-! ## 6. Claims -/

section Claims

variable {bytes : T → Nat} {batchSize : Nat} {recursive : Bool}
  {read : Slot K → Option (Option T × ν)} {db : Db K δ P} {ids : List Nat} {q' : Queue K}
  {items : List (Item K T ν)}

section

omit [DecidableEq K]

theorem mem_claimLoop {c : Job K} {f : Fate K T ν} {js : List (Job K)} {used : Nat}
    (h : (c, f) ∈ claimLoop bytes recursive read used js) :
    c ∈ js ∧ (f = .malformed → recursive ≠ c.slot.chunk.isSome) ∧ ∀ it, f = .taken it →
      it = Item.ofRead bytes c.id c.slot (read c.slot) ∧ recursive = c.slot.chunk.isSome := by
  fun_induction claimLoop bytes recursive read used js with
  | case1 => cases h
  | case2 used j js hr ih =>
    rcases mem_cons.mp h with h | h
    · cases h
      exact ⟨mem_cons_self, fun _ => hr, nofun⟩
    · exact (ih h).imp_left (mem_cons_of_mem _)
  | case3 used j js hr it used' hover ih =>
    rcases mem_cons.mp h with h | h
    · cases h
      exact ⟨mem_cons_self, nofun, nofun⟩
    · exact (ih h).imp_left (mem_cons_of_mem _)
  | case4 used j js hr it used' hover ih =>
    rcases mem_cons.mp h with h | h
    · cases h
      refine ⟨mem_cons_self, nofun, fun it e => ?_⟩
      cases e
      exact ⟨rfl, not_not.mp hr⟩
    · exact (ih h).imp_left (mem_cons_of_mem _)

@[simp] theorem Item.ofRead_id (i : Nat) (s : Slot K) (o : Option (Option T × ν)) :
    (Item.ofRead bytes i s o).id = i := by
  cases o <;> rfl

@[simp] theorem Item.ofRead_pk (i : Nat) (s : Slot K) (o : Option (Option T × ν)) :
    (Item.ofRead bytes i s o).pk = s.pk := by
  cases o <;> rfl

@[simp] theorem Item.ofRead_chunk (i : Nat) (s : Slot K) (o : Option (Option T × ν)) :
    (Item.ofRead bytes i s o).chunk = s.chunk := by
  cases o <;> rfl

@[simp] theorem Item.ofRead_version (i : Nat) (s : Slot K) (o : Option (Option T × ν)) :
    (Item.ofRead bytes i s o).version = o.map Prod.snd := by
  cases o <;> rfl

/-- Within the cap an item has the text that was read. -/
theorem Item.ofRead_text {i : Nat} {s : Slot K} {text : Option T} {v : ν}
    (h : (Item.ofRead bytes i s (some (text, v))).oversized = false) :
    (Item.ofRead bytes i s (some (text, v))).text = text := by
  have hl : (text.any fun t => decide (bytes t > itemCap)) = false := h
  simp [Item.ofRead, hl]

end

/-- What a claim leaves: the claimed jobs are dead, pending again, or in flight and claimed; an item
    in flight is one of them with what was read for it. -/
structure Claimed (bytes : T → Nat) (recursive : Bool) (read : Slot K → Option (Option T × ν))
    (db : Db K δ P) (ids : List Nat) (q' : Queue K) (items : List (Item K T ν)) : Prop where
  open_ : db.truncated = false
  selected : ∀ j ∈ db.queue.jobs, j.id ∈ ids →
    j.claimed = false ∧ j.slot.op = .embed ∧ db.jobLocked j.id = false
  keeps : Queue.Keeps (· ∈ ids) db.queue q'
  moved : ∀ j ∈ db.queue.jobs, j.id ∈ ids →
    (∃ d ∈ q'.dead, d.id = j.id ∧ d.slot = j.slot) ∨
    (∃ j' ∈ q'.jobs, j'.claimed = false ∧ j'.slot = j.slot ∧
      (db.queue.nextId ≤ j'.id ∨ (j' ∈ db.queue.jobs ∧ db.slotLocked j'.slot = false))) ∨
    ∃ j' ∈ q'.jobs, j'.id = j.id ∧ j'.slot = j.slot
  taken : ∀ it ∈ items, it.id ∈ ids ∧ ∃ j ∈ db.queue.jobs,
    it = Item.ofRead bytes j.id j.slot (read j.slot) ∧ recursive = j.slot.chunk.isSome
  claimed : ∀ j ∈ q'.jobs, ∀ it ∈ items, it.id = j.id →
    j.claimed = true ∧ j.slot.pk = it.pk ∧ j.slot.chunk = it.chunk

theorem claimJobs_spec (h : claimJobs bytes batchSize recursive read db ids = some (q', items)) :
    Claimed bytes recursive read db ids q' items := by
  unfold claimJobs at h
  simp only [Option.ite_none_right_eq_some, Option.some.injEq, Prod.mk.injEq, Bool.and_eq_true,
    Bool.not_eq_true'] at h
  obtain ⟨⟨⟨⟨hopen, -⟩, hids⟩, hslots⟩, rfl, rfl⟩ := h
  set q := db.queue
  set q₁ := q.claim fun j => ids.contains j.id
  set fates := claimLoop bytes recursive read 0 (q₁.jobs.filter fun j => ids.contains j.id)
  set bad := (fates.filter fun f => f.2.isMalformed).map fun f => f.1.id
  set deferred := ((fates.filter fun f => f.2.isOverBudget).map fun f => f.1).map Job.id
  have hfate : ∀ c f, (c, f) ∈ fates → c ∈ q₁.jobs ∧ c.id ∈ ids := by
    intro c f hc
    simpa using (mem_claimLoop hc).1
  have hB : ∀ i ∈ bad, i ∈ ids := by
    intro i hi
    obtain ⟨⟨c, f⟩, hc, rfl⟩ := mem_map.mp hi
    exact (hfate c f (mem_filter.mp hc).1).2
  have hO : ∀ i ∈ deferred, i ∈ ids := by
    intro i hi
    obtain ⟨c, hc, rfl⟩ := mem_map.mp hi
    obtain ⟨⟨c', f⟩, hc', rfl⟩ := mem_map.mp hc
    exact (hfate c' f (mem_filter.mp hc').1).2
  have hitem : ∀ it ∈ fates.filterMap fun f => f.2.item?, ∃ c ∈ q₁.jobs, c.id ∈ ids ∧
      it = Item.ofRead bytes c.id c.slot (read c.slot) ∧ recursive = c.slot.chunk.isSome := by
    intro it hit
    obtain ⟨⟨c, f⟩, hc, e⟩ := mem_filterMap.mp hit
    cases f with
    | malformed | overBudget => cases e
    | taken it' =>
      cases e
      obtain ⟨hm, hi⟩ := hfate c _ hc
      obtain ⟨ht, hr⟩ := (mem_claimLoop hc).2.2 it rfl
      exact ⟨c, hm, hi, ht, hr⟩
  exact
    { open_ := hopen
      selected := by
        intro j hj hi
        have := all_eq_true.mp hids j.id hi
        simp only [any_eq_true, Bool.and_eq_true, decide_eq_true_eq,
          Bool.not_eq_true'] at this
        obtain ⟨j', hj', ⟨⟨e, hp⟩, hop⟩, hl⟩ := this
        rw [q.eq_of_id hj' hj e] at hp hop
        exact ⟨hp, hop, hl⟩
      keeps := Queue.keeps_sortClaimed hB hO
      moved := by
        intro j hj hi
        have hc : Queue.claimJob (fun j => ids.contains j.id) j ∈ q₁.jobs :=
          Queue.mem_claim.mpr ⟨j, hj, rfl⟩
        have hcid := Queue.claimJob_id (fun j => ids.contains j.id) j
        have hcs := Queue.claimJob_slot (fun j => ids.contains j.id) j
        rcases Queue.moved_unclaimJobs true (fun j => bad.contains j.id) deferred hc with
          hd | ⟨-, ho, j', hj', hp, hs, h⟩ | ⟨-, hk⟩
        · exact .inl ⟨_, hd, hcid, hcs⟩
        · refine .inr (.inl ⟨j', hj', hp, hs.trans hcs, h.imp_right fun h => ?_⟩)
          -- an old pending job in the slot of a job that has just been claimed
          obtain ⟨j₀, hj₀, e⟩ := Queue.mem_claim.mp h
          rw [← e] at hp
          rw [(Queue.claimJob_pending hp).1] at e
          refine ⟨e ▸ hj₀, ?_⟩
          obtain ⟨c', hc', ec⟩ := mem_map.mp ho
          obtain ⟨⟨c'', f⟩, hf, rfl⟩ := mem_map.mp hc'
          have hcc := q₁.eq_of_id (hfate c'' f (mem_filter.mp hf).1).1 hc ec
          rw [hs, ← hcc]
          simpa using all_eq_true.mp hslots c'' hc'
        · exact .inr (.inr ⟨_, hk, hcid, hcs⟩)
      taken := by
        intro it hit
        obtain ⟨c, hc, hi, rfl, hr⟩ := hitem it hit
        obtain ⟨j, hj, rfl⟩ := Queue.mem_claim.mp hc
        simp only [Queue.claimJob_id, Queue.claimJob_slot, Item.ofRead_id] at hi hr ⊢
        exact ⟨hi, j, hj, rfl, hr⟩
      claimed := by
        intro j hj it hit e
        obtain ⟨c, hc, hi, rfl, -⟩ := hitem it hit
        rw [Item.ofRead_id] at e
        rw [Item.ofRead_pk, Item.ofRead_chunk]
        obtain ⟨rfl, hcl⟩ := Queue.claimed_sortClaimed hc hi e hj
        exact ⟨hcl, rfl, rfl⟩ }

end Claims

/-! ## 7. Items in flight -/

section Flights

variable {bytes : T → Nat} {recursive : Bool} {read : Slot K → Option (Option T × ν)}
  {db : Db K δ P} {ids : List Nat} {q q' : Queue K} {items items' : List (Item K T ν)}

/-- The jobs in flight are claimed, and keep their key. -/
structure Flight (q : Queue K) (items : List (Item K T ν)) : Prop where
  claimed : ∀ j ∈ q.jobs, ∀ it ∈ items, it.id = j.id →
    j.claimed = true ∧ j.slot.pk = it.pk ∧ j.slot.chunk = it.chunk
  issued : ∀ it ∈ items, it.id < q.nextId

/-- The job is not in flight, or was read with a version: it will not be finished unchecked. -/
def Minded (items : List (Item K T ν)) (i : Nat) : Prop :=
  ∀ it ∈ items, it.id = i → it.version ≠ none

section

omit [DecidableEq K]

theorem minded_nil (i : Nat) : Minded ([] : List (Item K T ν)) i := fun _ h => by cases h

theorem Minded.mono {i : Nat} (h : Minded items i) (hin : ∀ it ∈ items', it ∈ items) :
    Minded items' i := fun it hit => h it (hin it hit)

theorem flight_nil (q : Queue K) : Flight q ([] : List (Item K T ν)) where
  claimed := by simp
  issued := by simp

theorem Flight.minded_of_pending (h : Flight q items) {j : Job K} (hj : j ∈ q.jobs)
    (hp : j.claimed = false) : Minded items j.id := by
  intro it hit e
  have hc := (h.claimed j hj it hit e).1
  rw [hp] at hc
  cases hc

/-- Jobs of the items left in flight are claimed as before. -/
theorem Flight.grows (h : Flight q items) (hk : Queue.Grows q q')
    (hin : ∀ it ∈ items', it ∈ items) : Flight q' items' := by
  refine ⟨fun j hj it hit e => ?_, fun it hit =>
    Nat.lt_of_lt_of_le (h.issued it (hin it hit)) hk.next⟩
  exact hk.claimed (R := fun σ => σ.pk = it.pk ∧ σ.chunk = it.chunk) (h.issued it (hin it hit))
    (fun j hj e => h.claimed j hj it (hin it hit) e.symm) hj e.symm

end

theorem Claimed.flight (h : Claimed bytes recursive read db ids q' items) :
    Flight q' items where
  claimed := h.claimed
  issued := by
    intro it hit
    obtain ⟨-, j, hj, rfl, -⟩ := h.taken it hit
    rw [Item.ofRead_id]
    exact Nat.lt_of_lt_of_le (db.queue.ids_lt j hj) h.keeps.next

/-- What a key relied on it still does after a claim, unless a job of it was claimed whose target
    is not there. -/
theorem Claimed.stands (h : Claimed bytes recursive read db ids q' items) {dropped : List Nat}
    {droppedDead : List (Job K)} (hw : Withheld db dropped droppedDead) {sure : Nat → Prop} {k : K}
    (hk : Stands db.queue sure dropped droppedDead k)
    (hread : ∀ j ∈ db.queue.jobs, j.id ∈ ids → j.slot.pk = k → read j.slot ≠ none) :
    Stands q' (Minded items) dropped droppedDead k := by
  refine hk.carry h.keeps.dead fun j hj hjk hn _ => ?_
  by_cases hi : j.id ∈ ids
  · rcases h.moved j hj hi with ⟨d, hd, hid, hs⟩ | ⟨j', hj', hp, hs, hold⟩ | ⟨j', hj', hid, hs⟩
    · rw [← hjk]
      exact hw.of_dead hj hd hid hs
    · rw [← hjk, ← hs]
      exact hw.of_pending hj' hp hold (h.flight.minded_of_pending hj' hp)
    · refine .inr ⟨j', hj', by rw [hs, hjk], hid ▸ hn, fun it hit e => ?_⟩
      -- the item is this job's, and its target was there
      obtain ⟨-, j₀, hj₀, rfl, -⟩ := h.taken it hit
      rw [Item.ofRead_id] at e
      rw [db.queue.eq_of_id hj₀ hj (e.trans hid), Item.ofRead_version]
      simpa using hread j hj hi hjk
  · refine .inr ⟨j, h.keeps.jobs j hj hi, hjk, hn, fun it hit e => ?_⟩
    exact absurd (e ▸ (h.taken it hit).1) hi

end Flights

/-! ## 8. Write-back -/

section WriteBack

variable [DecidableEq ν] {M : Model T V} {db : Db K δ P} {changed : Bool} {current : Option ν}
  {blocked : Bool} {it : Item K T ν} {a : Answer} {q' : Queue K} {w : Option (Option V)}

/-- How `write_back` ends one job. -/
inductive Wrote (M : Model T V) (db : Db K δ P) (current : Option ν) (blocked : Bool)
    (it : Item K T ν) : Queue K → Option (Option V) → Prop where
  | skipped : (∀ j ∈ db.queue.jobs, j.id = it.id → j.claimed = false) →
      Wrote M db current blocked it db.queue none
  | dead : db.jobLocked it.id = false →
      Wrote M db current blocked it (finish db.queue it.id true) none
  | released (backoff : Bool) : releaseWaits db it.id backoff = false →
      Wrote M db current blocked it (release db.queue it.id backoff) none
  | unchecked : it.version = none →
      Wrote M db current blocked it (finish db.queue it.id false) none
  | written : current ≠ none → it.version = current → blocked = false → it.oversized = false →
      Wrote M db current blocked it (finish db.queue it.id false) (some (it.text.map M.embed))

omit [DecidableEq ν] in
theorem tryRelease_wrote {backoff : Bool}
    (h : (tryRelease db it.id backoff).map (fun q => (q, (none : Option (Option V)))) =
      some (q', w)) : Wrote M db current blocked it q' w := by
  obtain ⟨q, hq, e⟩ := Option.map_eq_some_iff.mp h
  cases e
  obtain ⟨hr, rfl⟩ := tryRelease_some hq
  exact .released backoff hr

omit [DecidableEq K] [DecidableEq ν] in
/-- What is written is the model's vector of the item's text, or NULL if there is none. -/
theorem ending_write {q : Queue K} {o : Outcome} {v : Option V}
    (h : ending M q changed it o = .write v) :
    it.oversized = false ∧ v = it.text.map M.embed := by
  unfold ending at h
  split at h
  · cases h
  split at h
  · cases h
  split at h
  · cases h
  rename_i hov
  refine ⟨by simpa using hov, ?_⟩
  cases ht : it.text with
  | none =>
    simp only [ht] at h
    cases h
    rfl
  | some t =>
    cases o with
    | vector =>
      simp only [ht] at h
      split at h
      · cases h
      · cases h
        rfl
    | retry | dead | failed => simp [ht] at h

theorem writeBackOne_cases (h : writeBackOne M db changed current blocked it a = some (q', w)) :
    Wrote M db current blocked it q' w := by
  unfold writeBackOne at h
  split at h
  · rename_i hend
    cases h
    refine .skipped fun j hj e => ?_
    unfold ending at hend
    split at hend
    · rename_i hn
      simp only [Bool.not_eq_true', any_eq_false, Bool.and_eq_true, beq_iff_eq, not_and,
        Bool.not_eq_true] at hn
      exact hn j hj e
    · split at hend
      · cases hend
      · split at hend
        · cases hend
        · cases ht : it.text with
          | none => simp [ht] at hend
          | some t =>
            cases ho : a.outcome with
            | vector =>
              simp only [ht, ho] at hend
              split at hend <;> cases hend
            | retry | dead | failed => simp [ht, ho] at hend
  · obtain ⟨q, hq, e⟩ := Option.map_eq_some_iff.mp h
    cases e
    obtain ⟨hl, rfl⟩ := tryFinish_some hq
    exact .dead hl
  · exact tryRelease_wrote h
  · rename_i v hend
    obtain ⟨hov, rfl⟩ := ending_write hend
    split at h
    · rename_i hv
      obtain ⟨q, hq, e⟩ := Option.map_eq_some_iff.mp h
      cases e
      rw [(tryFinish_some hq).2]
      exact .unchecked hv
    · rename_i version hv
      split at h
      · exact tryRelease_wrote h
      · rename_i hc
        split at h
        · exact tryRelease_wrote h
        · split at h
          · cases h
          · rename_i hb
            obtain ⟨q, hq, e⟩ := Option.map_eq_some_iff.mp h
            cases e
            rw [(tryFinish_some hq).2]
            have hc' : current = some version := not_not.mp hc
            exact .written (by simp [hc']) (hv.trans hc'.symm) (by simpa using hb) hov

end WriteBack
end Postvec.Managed
