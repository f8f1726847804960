import Postvec.Format.Grammar
import Postvec.Queue.Jobs

/-!
# Releasing claims

`unclaim_jobs_inner` gives claimed jobs back in one statement: it deletes them, keeps the newest of
each dedup key, and inserts those again `ON CONFLICT DO NOTHING`. Triggers of other sessions insert
jobs meanwhile, anywhere between the statement's own inserts.

* `Jobs` is `postvec.jobs` of all entries: the dedup key has the four columns of
  `jobs_pending_dedup`, and a NULL chunk is a value like any other (`NULLS NOT DISTINCT`);
* `unclaimJobs_preserves`: no key is lost, and what becomes of each released key;
* `queue_unclaimJobs`: without triggers this is the queue's `unclaimJobs`.

What commits before the rows are deleted is part of the state the statement starts from. A trigger
whose key the statement has inserted waits for its transaction and then finds the key taken, so it
comes after.
-/

namespace Postvec.Release

/-! ## 1. The table -/

/-- The columns of a job that the queue's model leaves out. -/
structure Info where
  notBefore : Int
  lastError : Option Text
  createdAt : Int
deriving DecidableEq

/-- `postvec.jobs`: a key is `registry_id` and `pk_value`. Ids are never used again, so the other
columns are found by id. -/
structure Jobs (P : Type*) where
  queue : Queue (Nat × P)
  info : Nat → Info

/-- A row to insert. -/
structure Entry (P : Type*) where
  slot : Slot (Nat × P)
  attempts : Nat
  info : Info
deriving DecidableEq

variable {P : Type*} [DecidableEq P]

/-- `INSERT .. ON CONFLICT (registry_id, op, pk_value, chunk_id) WHERE claimed_at IS NULL DO
NOTHING`. -/
def Jobs.insert (t : Jobs P) (e : Entry P) : Jobs P where
  queue := t.queue.insertPending e.slot e.attempts
  info := if t.queue.Pending e.slot then t.info else Function.update t.info t.queue.nextId e.info

/-- A dedup key has a pending or claimed job. -/
def Jobs.HasKey (t : Jobs P) (s : Slot (Nat × P)) : Prop := ∃ j ∈ t.queue.jobs, j.slot = s

/-! ## 2. The statement -/

/-- The arguments of `unclaim_jobs_inner`, and `now()`. -/
structure Params where
  now : Int
  delay : Int
  err : Text
  keepPriorError : Bool
  refundAttempt : Bool

/-- `SELECT .. FROM dedup`: what is inserted for a released job. -/
def Params.entry (p : Params) (t : Jobs P) (j : Job (Nat × P)) : Entry P where
  slot := j.slot
  attempts := if p.refundAttempt then j.attempts - 1 else j.attempts
  info :=
    { notBefore := p.now + p.delay
      lastError :=
        if p.keepPriorError then some ((t.info j.id).lastError.getD (p.err.take 1024))
        else some (p.err.take 1024)
      createdAt := (t.info j.id).createdAt }

/-- `RETURNING ..` of the deleted jobs. -/
def Jobs.released (t : Jobs P) (ids : List Nat) : List (Job (Nat × P)) :=
  t.queue.jobs.filter fun j => ids.contains j.id

def Jobs.dedup (t : Jobs P) (p : Params) (ids : List Nat) : List (Entry P) :=
  (Queue.newestPerSlot (t.released ids)).map (p.entry t)

/-- An insert that the statement makes, or a trigger of another session. -/
inductive Insert (P : Type*) where
  | own (e : Entry P)
  | trigger (s : Slot (Nat × P)) (now : Int)

/-- A trigger leaves everything but the key to the defaults of the columns. -/
def Insert.entry : Insert P → Entry P
  | .own e => e
  | .trigger s now => ⟨s, 0, ⟨now, none, now⟩⟩

def Insert.own? : Insert P → Option (Entry P)
  | .own e => some e
  | .trigger _ _ => none

def Jobs.run (t : Jobs P) (is : List (Insert P)) : Jobs P :=
  is.foldl (fun t i => t.insert i.entry) t

/-- `unclaim_jobs_inner`; `is` are its inserts and those that triggers make between them. -/
def Jobs.unclaimJobs (t : Jobs P) (ids : List Nat) (is : List (Insert P)) : Jobs P :=
  Jobs.run { t with queue := t.queue.deleteJobs fun j => ids.contains j.id } is

/-- `is` has exactly the inserts of the statement, in some order. -/
def Interleaves (t : Jobs P) (p : Params) (ids : List Nat) (is : List (Insert P)) : Prop :=
  (is.filterMap Insert.own?).Perm (t.dedup p ids)

/-! ## 3. What inserts do -/

namespace Jobs

theorem info_insert {t : Jobs P} {e : Entry P} {i : Nat} (h : i < t.queue.nextId) :
    (t.insert e).info i = t.info i := by
  unfold insert
  dsimp only
  split
  · rfl
  · exact Function.update_of_ne (Nat.ne_of_lt h) _ _

theorem info_insert_new {t : Jobs P} {e : Entry P} (h : ¬ t.queue.Pending e.slot) :
    (t.insert e).info t.queue.nextId = e.info := by
  unfold insert
  dsimp only
  rw [if_neg h, Function.update_self]

/-- Jobs stay, with all their columns. -/
theorem mem_run_of_mem {j : Job (Nat × P)} : ∀ (is : List (Insert P)) {t : Jobs P},
    j ∈ t.queue.jobs → j ∈ (t.run is).queue.jobs ∧ (t.run is).info j.id = t.info j.id
  | [], _, h => ⟨h, rfl⟩
  | i :: is, t, h => by
    have hin : j ∈ (t.insert i.entry).queue.jobs := Queue.mem_insertPending.mpr (.inl h)
    obtain ⟨hj, e⟩ := mem_run_of_mem is hin
    exact ⟨hj, e.trans (info_insert (t.queue.ids_lt j h))⟩

/-- `j`, with the columns `info`, is what the insert of `e` leaves. -/
structure Stems (e : Entry P) (j : Job (Nat × P)) (info : Info) : Prop where
  pending : j.claimed = false
  slot : j.slot = e.slot
  attempts : j.attempts = e.attempts
  info : info = e.info

/-- A job that was not there before stems from one of the inserts. -/
theorem mem_run {j : Job (Nat × P)} : ∀ (is : List (Insert P)) (t : Jobs P),
    j ∈ (t.run is).queue.jobs → j ∈ t.queue.jobs ∨
      ∃ i ∈ is, Stems i.entry j ((t.run is).info j.id)
  | [], _, h => .inl h
  | i :: is, t, h => by
    rcases mem_run is _ h with h | ⟨i', hi', hs⟩
    · rcases Queue.mem_insertPending.mp h with h' | ⟨hfree, rfl⟩
      · exact .inl h'
      · have hinfo := (mem_run_of_mem is h).2.trans (info_insert_new hfree)
        exact .inr ⟨i, List.mem_cons_self, rfl, rfl, rfl, hinfo⟩
    · exact .inr ⟨i', List.mem_cons_of_mem _ hi', hs⟩

/-- The key of every insert is pending afterwards. -/
theorem pending_run {i : Insert P} : ∀ (is : List (Insert P)) (t : Jobs P), i ∈ is →
    (t.run is).queue.Pending i.entry.slot
  | i' :: is, t, h => by
    rcases List.mem_cons.mp h with rfl | h
    · obtain ⟨j, hj, hp⟩ := Queue.pending_insertPending t.queue i.entry.slot i.entry.attempts
      exact ⟨j, (mem_run_of_mem is hj).1, hp⟩
    · exact pending_run is _ h

end Jobs

/-! ## 4. What is inserted for the released jobs -/

section Statement

variable {t : Jobs P} {p : Params} {ids : List Nat} {is : List (Insert P)}

variable {j : Job (Nat × P)}

omit [DecidableEq P] in
theorem mem_released :
    j ∈ t.released ids ↔ j ∈ t.queue.jobs ∧ j.id ∈ ids := by
  simp [Jobs.released]

/-- `n` is the newest released job of its key. -/
structure Newest (t : Jobs P) (ids : List Nat) (n : Job (Nat × P)) : Prop where
  released : n ∈ t.released ids
  last : ∀ n' ∈ t.released ids, n'.slot = n.slot → n'.id ≤ n.id

theorem mem_newestPerSlot {n : Job (Nat × P)} :
    n ∈ Queue.newestPerSlot (t.released ids) ↔ Newest t ids n := by
  simp only [Queue.newestPerSlot, List.mem_filter, Bool.not_eq_true', List.any_eq_false,
    Bool.and_eq_true, decide_eq_true_eq, not_and, not_lt]
  exact ⟨fun h => ⟨h.1, h.2⟩, fun h => ⟨h.released, h.last⟩⟩

/-- The statement inserts for the newest released job of each key, and for nothing else. -/
theorem Interleaves.mem_own (h : Interleaves t p ids is) {e : Entry P} :
    Insert.own e ∈ is ↔ ∃ n, Newest t ids n ∧ p.entry t n = e := by
  have hown : Insert.own e ∈ is ↔ e ∈ is.filterMap Insert.own? := by
    rw [List.mem_filterMap]
    constructor
    · intro he
      exact ⟨_, he, rfl⟩
    · rintro ⟨i, hi, hie⟩
      cases i with
      | own e' =>
        cases hie
        exact hi
      | trigger _ _ => cases hie
  rw [hown, h.mem_iff, Jobs.dedup, List.mem_map]
  simp only [mem_newestPerSlot]

/-- Every released key has a newest job. -/
theorem exists_newest (h : j ∈ t.released ids) :
    ∃ n, Newest t ids n ∧ n.slot = j.slot := by
  obtain ⟨n, hn, e⟩ := Queue.exists_newestPerSlot
    (fun x hx => t.queue.ids_lt x (mem_released.mp hx).1) h
  exact ⟨n, mem_newestPerSlot.mp hn, e⟩

/-! ## 5. What a release leaves -/

/-- Where the pending job `j` of a released key comes from; `info` are its other columns. -/
inductive Survivor (t : Jobs P) (p : Params) (ids : List Nat) (is : List (Insert P))
    (j : Job (Nat × P)) (info : Info) : Prop where
  /-- It was pending before. -/
  | kept (mem : j ∈ t.queue.jobs) (other : j.id ∉ ids) (same : info = t.info j.id)
  /-- A trigger came first. -/
  | trigger (now : Int) (mem : Insert.trigger j.slot now ∈ is) (attempts : j.attempts = 0)
      (same : info = ⟨now, none, now⟩)
  /-- It is the newest released job of the key. -/
  | released (n : Job (Nat × P)) (newest : Newest t ids n) (slot : n.slot = j.slot)
      (attempts : j.attempts = if p.refundAttempt then n.attempts - 1 else n.attempts)
      (created : info.createdAt = (t.info n.id).createdAt)

/-- What the table looks like after a release. -/
structure Preserved (t : Jobs P) (p : Params) (ids : List Nat) (is : List (Insert P))
    (t' : Jobs P) : Prop where
  /-- `jobs_pending_dedup` holds. -/
  dedup : ∀ j ∈ t'.queue.jobs, ∀ j' ∈ t'.queue.jobs,
    j.claimed = false → j'.claimed = false → j.slot = j'.slot → j = j'
  /-- The keys are the same, and those that triggers inserted. -/
  keys : ∀ s, t'.HasKey s ↔ t.HasKey s ∨ ∃ now, Insert.trigger s now ∈ is
  unclaimed : ∀ j ∈ t'.queue.jobs, j.id ∈ ids → j.claimed = false
  others : ∀ j ∈ t.queue.jobs, j.id ∉ ids →
    j ∈ t'.queue.jobs ∧ t'.info j.id = t.info j.id
  survivor : ∀ j₀ ∈ t.released ids, ∃ j ∈ t'.queue.jobs,
    j.claimed = false ∧ j.slot = j₀.slot ∧ Survivor t p ids is j (t'.info j.id)

omit [DecidableEq P] in
/-- Two pending jobs of one slot are the same. -/
theorem eq_of_slot (q : Queue (Nat × P)) {j' : Job (Nat × P)} (hj : j ∈ q.jobs)
    (hj' : j' ∈ q.jobs) (hp : j.claimed = false) (hp' : j'.claimed = false)
    (e : j.slot = j'.slot) : j = j' :=
  List.inj_on_of_nodup_map q.dedup (by simp [hj, hp]) (by simp [hj', hp']) e

/-- A job found afterwards was not released, or stems from one of the inserts. -/
theorem mem_unclaimJobs (hj : j ∈ (t.unclaimJobs ids is).queue.jobs) :
    (j ∈ t.queue.jobs ∧ j.id ∉ ids) ∨
      ∃ i ∈ is, Jobs.Stems i.entry j ((t.unclaimJobs ids is).info j.id) := by
  rcases Jobs.mem_run is _ hj with h | h
  · rw [Queue.mem_deleteJobs] at h
    exact .inl ⟨h.1, by simpa using h.2⟩
  · exact .inr h

theorem mem_unclaimJobs_of_notMem (hj : j ∈ t.queue.jobs) (hi : j.id ∉ ids) :
    j ∈ (t.unclaimJobs ids is).queue.jobs ∧
      (t.unclaimJobs ids is).info j.id = t.info j.id :=
  Jobs.mem_run_of_mem is (Queue.mem_deleteJobs.mpr ⟨hj, by simpa using hi⟩)

/-- A released key is pending afterwards. -/
theorem pending_unclaimJobs (h : Interleaves t p ids is)
    (hj : j ∈ t.released ids) : (t.unclaimJobs ids is).queue.Pending j.slot := by
  obtain ⟨n, hn, e⟩ := exists_newest hj
  have hp : (t.unclaimJobs ids is).queue.Pending (p.entry t n).slot :=
    Jobs.pending_run is _ (h.mem_own.mpr ⟨n, hn, rfl⟩)
  rw [← e]
  exact hp

theorem hasKey_unclaimJobs (h : Interleaves t p ids is) (s : Slot (Nat × P)) :
    (t.unclaimJobs ids is).HasKey s ↔ t.HasKey s ∨ ∃ now, Insert.trigger s now ∈ is := by
  constructor
  · rintro ⟨j, hj, rfl⟩
    rcases mem_unclaimJobs hj with ⟨hj, -⟩ | ⟨i, hi, hs⟩
    · exact .inl ⟨j, hj, rfl⟩
    · cases i with
      | own e =>
        obtain ⟨n, hn, rfl⟩ := h.mem_own.mp hi
        exact .inl ⟨n, (mem_released.mp hn.released).1, hs.slot.symm⟩
      | trigger s now =>
        refine .inr ⟨now, ?_⟩
        rw [hs.slot]
        exact hi
  · rintro (⟨j, hj, rfl⟩ | ⟨now, hi⟩)
    · by_cases hid : j.id ∈ ids
      · obtain ⟨j', hj', -, e⟩ := pending_unclaimJobs h (mem_released.mpr ⟨hj, hid⟩)
        exact ⟨j', hj', e⟩
      · exact ⟨j, (mem_unclaimJobs_of_notMem hj hid).1, rfl⟩
    · obtain ⟨j', hj', -, e⟩ : (t.unclaimJobs ids is).queue.Pending
        (Insert.trigger s now).entry.slot
        := Jobs.pending_run is _ hi
      exact ⟨j', hj', e⟩

/-- The pending job of a released key is of one of the three kinds. -/
theorem survivor_of_pending (h : Interleaves t p ids is)
    (hj : j ∈ (t.unclaimJobs ids is).queue.jobs) :
    Survivor t p ids is j ((t.unclaimJobs ids is).info j.id) := by
  rcases mem_unclaimJobs hj with ⟨hj, hid⟩ | ⟨i, hi, hs⟩
  · exact .kept hj hid (mem_unclaimJobs_of_notMem hj hid).2
  · cases i with
    | own e =>
      obtain ⟨n, hn, rfl⟩ := h.mem_own.mp hi
      exact .released n hn hs.slot.symm hs.attempts (by rw [hs.info]; rfl)
    | trigger s now =>
      refine .trigger now ?_ hs.attempts hs.info
      rw [hs.slot]
      exact hi

end Statement

/-- **Releasing claims loses no key.** For every table, every set of ids and all inserts of triggers
among those of the statement. -/
theorem unclaimJobs_preserves (t : Jobs P) (p : Params) (ids : List Nat) (is : List (Insert P))
    (h : Interleaves t p ids is) : Preserved t p ids is (t.unclaimJobs ids is) where
  dedup := fun _ hj _ hj' hp hp' e => eq_of_slot _ hj hj' hp hp' e
  keys := hasKey_unclaimJobs h
  unclaimed := by
    intro j hj hid
    rcases mem_unclaimJobs hj with ⟨-, hn⟩ | ⟨i, -, hs⟩
    · exact absurd hid hn
    · exact hs.pending
  others := fun _ hj hid => mem_unclaimJobs_of_notMem hj hid
  survivor := by
    intro j₀ hj₀
    obtain ⟨j, hj, hp, e⟩ := pending_unclaimJobs h hj₀
    exact ⟨j, hj, hp, e, survivor_of_pending h hj⟩

/-- Two claimed jobs of one row, a pending one of another, and a trigger for the first. -/
def sampleJobs : Jobs Nat where
  queue := ((((Queue.empty.insertPending (rowSlot (1, 7)) 2).claim fun _ => true).insertPending
    (rowSlot (1, 7)) 0).claim fun _ => true).insertPending (rowSlot (1, 8)) 0
  info := fun i => ⟨0, none, i⟩

def sampleParams : Params := ⟨9, 0, [], true, true⟩

def sampleInserts : List (Insert Nat) :=
  (sampleJobs.dedup sampleParams [0, 1]).map .own ++ [.trigger (rowSlot (1, 7)) 9]

/-- Both jobs of the row are released at once: the newer one survives, and the trigger finds it. -/
theorem sampleJobs_released :
    Preserved sampleJobs sampleParams [0, 1] sampleInserts
        (sampleJobs.unclaimJobs [0, 1] sampleInserts) ∧
      (sampleJobs.unclaimJobs [0, 1] sampleInserts).queue.jobs.length = 2 :=
  ⟨unclaimJobs_preserves _ _ _ _ (by unfold Interleaves; decide), by decide⟩

/-! ## 6. The queue's own release -/

theorem queue_run_own : ∀ (es : List (Entry P)) (t : Jobs P),
    (t.run (es.map .own)).queue = t.queue.insertAll (es.map fun e => (e.slot, e.attempts))
  | [], _ => rfl
  | e :: es, t => queue_run_own es (t.insert e)

/-- Without triggers the release is the one of the queue. -/
theorem queue_unclaimJobs (t : Jobs P) (p : Params) (ids : List Nat) :
    (t.unclaimJobs ids ((t.dedup p ids).map .own)).queue =
      t.queue.unclaimJobs ids p.refundAttempt := by
  unfold Jobs.unclaimJobs Queue.unclaimJobs
  rw [queue_run_own, Jobs.dedup, List.map_map]
  rfl

end Postvec.Release
