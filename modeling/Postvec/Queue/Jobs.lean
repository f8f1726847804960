import Mathlib.Data.List.Nodup

/-!
# The job queue

`postvec.jobs` and `postvec.jobs_dead` of one registry entry, and the statements the triggers and
the workers run on them. A job stands for work on one key of the source table (`Slot`); a pending
job (not claimed) holds the dedup key of its slot. `Queue` carries what the table's constraints
give: ids come from a sequence and are never used again, not even after a job is dead, and
`jobs_pending_dedup` admits one pending job for each slot.

Times (`not_before`, `claimed_at`, `created_at`) and the error text kept in a job are left out:
nothing here branches on them except which jobs are due or stale, and that is chosen by the
caller.
-/

namespace Postvec

open List

/-- What a job asks for. -/
inductive Op where
  | embed
  | refresh
deriving DecidableEq, Repr

/-- The dedup key of a job inside its registry entry: key, kind and chunk. -/
structure Slot (K : Type*) where
  pk : K
  op : Op
  chunk : Option Nat
deriving DecidableEq, Repr

/-- A row of `postvec.jobs`. -/
structure Job (K : Type*) where
  id : Nat
  slot : Slot K
  attempts : Nat
  claimed : Bool
deriving DecidableEq, Repr

/-- The slot of a whole source row in column mode. -/
def rowSlot {K : Type*} (k : K) : Slot K := ⟨k, .embed, none⟩

/-- The slot of a document's split-and-replace in chunk mode. -/
def refreshSlot {K : Type*} (k : K) : Slot K := ⟨k, .refresh, none⟩

/-- The slot of one chunk's embedding. -/
def chunkSlot {K : Type*} (k : K) (cid : Nat) : Slot K := ⟨k, .embed, some cid⟩

variable {K : Type*}

/-- `postvec.jobs` and `postvec.jobs_dead`. -/
structure Queue (K : Type*) where
  jobs : List (Job K)
  dead : List (Job K)
  nextId : Nat
  ids_lt : ∀ j ∈ jobs, j.id < nextId
  ids_nodup : (jobs.map Job.id).Nodup
  dedup : ((jobs.filter fun j => !j.claimed).map Job.slot).Nodup
  dead_lt : ∀ d ∈ dead, d.id < nextId
  dead_apart : ∀ d ∈ dead, ∀ j ∈ jobs, d.id ≠ j.id

namespace Queue

def empty : Queue K where
  jobs := []
  dead := []
  nextId := 0
  ids_lt := by simp
  ids_nodup := by simp
  dedup := by simp
  dead_lt := by simp
  dead_apart := by simp

/-- A slot has a pending job. -/
def Pending (q : Queue K) (s : Slot K) : Prop := ∃ j ∈ q.jobs, j.claimed = false ∧ j.slot = s

/-- A key has a pending or claimed job. -/
def Live (q : Queue K) (k : K) : Prop := ∃ j ∈ q.jobs, j.slot.pk = k

/-- A key has a dead job. -/
def Dead (q : Queue K) (k : K) : Prop := ∃ j ∈ q.dead, j.slot.pk = k

/-- Ids are unique. -/
theorem eq_of_id (q : Queue K) {j j' : Job K} (h : j ∈ q.jobs) (h' : j' ∈ q.jobs)
    (e : j.id = j'.id) : j = j' :=
  inj_on_of_nodup_map q.ids_nodup h h' e

/-! ## 1. Deleting -/

/-- `DELETE FROM postvec.jobs WHERE p`. -/
def deleteJobs (q : Queue K) (p : Job K → Bool) : Queue K where
  jobs := q.jobs.filter fun j => !p j
  dead := q.dead
  nextId := q.nextId
  ids_lt := fun j h => q.ids_lt j (mem_of_mem_filter h)
  ids_nodup := q.ids_nodup.sublist (filter_sublist.map _)
  dedup := q.dedup.sublist ((filter_sublist.filter _).map _)
  dead_lt := q.dead_lt
  dead_apart := fun d hd j hj => q.dead_apart d hd j (mem_of_mem_filter hj)

/-- `DELETE FROM postvec.jobs_dead WHERE p`. -/
def deleteDead (q : Queue K) (p : Job K → Bool) : Queue K :=
  { q with
    dead := q.dead.filter fun j => !p j
    dead_lt := fun d hd => q.dead_lt d (mem_of_mem_filter hd)
    dead_apart := fun d hd => q.dead_apart d (mem_of_mem_filter hd) }

/-- `move_to_dead`: the jobs are copied to `jobs_dead` and deleted. -/
def moveToDead (q : Queue K) (p : Job K → Bool) : Queue K :=
  { q.deleteJobs p with
    dead := q.dead ++ q.jobs.filter p
    dead_lt := by
      intro d hd
      rcases mem_append.mp hd with hd | hd
      · exact q.dead_lt d hd
      · exact q.ids_lt d (mem_of_mem_filter hd)
    dead_apart := by
      intro d hd j hj e
      obtain ⟨hj, hp⟩ := mem_filter.mp hj
      rcases mem_append.mp hd with hd | hd
      · exact q.dead_apart d hd j hj e
      · obtain ⟨hd, hp'⟩ := mem_filter.mp hd
        rw [q.eq_of_id hd hj e] at hp'
        simp [hp'] at hp }

variable {j : Job K} {p : Job K → Bool} {q : Queue K}

@[simp] theorem mem_deleteJobs :
    j ∈ (q.deleteJobs p).jobs ↔ j ∈ q.jobs ∧ p j = false := by
  simp [deleteJobs]

@[simp] theorem dead_deleteJobs (q : Queue K) (p : Job K → Bool) :
    (q.deleteJobs p).dead = q.dead := rfl

@[simp] theorem jobs_deleteDead (q : Queue K) (p : Job K → Bool) :
    (q.deleteDead p).jobs = q.jobs := rfl

@[simp] theorem mem_deleteDead :
    j ∈ (q.deleteDead p).dead ↔ j ∈ q.dead ∧ p j = false := by
  simp [deleteDead]

@[simp] theorem jobs_moveToDead (q : Queue K) (p : Job K → Bool) :
    (q.moveToDead p).jobs = (q.deleteJobs p).jobs := rfl

@[simp] theorem mem_dead_moveToDead :
    j ∈ (q.moveToDead p).dead ↔ j ∈ q.dead ∨ (j ∈ q.jobs ∧ p j = true) := by
  simp [moveToDead]

@[simp] theorem nextId_moveToDead (q : Queue K) (p : Job K → Bool) :
    (q.moveToDead p).nextId = q.nextId := rfl

/-! ## 2. Claiming -/

/-- One job under the claiming `UPDATE`. -/
def claimJob (p : Job K → Bool) (j : Job K) : Job K :=
  if !j.claimed && p j then { j with claimed := true, attempts := j.attempts + 1 } else j

@[simp] theorem claimJob_id (p : Job K → Bool) (j : Job K) : (claimJob p j).id = j.id := by
  unfold claimJob
  split <;> rfl

@[simp] theorem claimJob_slot (p : Job K → Bool) (j : Job K) : (claimJob p j).slot = j.slot := by
  unfold claimJob
  split <;> rfl

theorem claimJob_pending (h : (claimJob p j).claimed = false) :
    claimJob p j = j ∧ j.claimed = false := by
  unfold claimJob at h ⊢
  split at h
  · simp at h
  · rename_i hc
    exact ⟨if_neg hc, h⟩

/-- `UPDATE postvec.jobs SET claimed_at = now(), attempts = attempts + 1` over the pending jobs
    that `p` selects. -/
def claim (q : Queue K) (p : Job K → Bool) : Queue K where
  jobs := q.jobs.map (claimJob p)
  dead := q.dead
  nextId := q.nextId
  ids_lt := by
    intro j h
    obtain ⟨j', hj', rfl⟩ := mem_map.mp h
    rw [claimJob_id]
    exact q.ids_lt j' hj'
  ids_nodup := by
    rw [map_map, show Job.id ∘ claimJob p = Job.id from funext (claimJob_id p)]
    exact q.ids_nodup
  dedup := by
    refine q.dedup.sublist ?_
    induction q.jobs with
    | nil => simp
    | cons j js ih =>
      simp only [map_cons, filter_cons]
      by_cases hc : (claimJob p j).claimed = false
      · obtain ⟨e, hj⟩ := claimJob_pending hc
        simpa [e, hj] using ih
      · by_cases hj : j.claimed = false
        · simpa [hc, hj] using ih.cons _
        · simpa [hc, hj] using ih
  dead_lt := q.dead_lt
  dead_apart := by
    intro d hd j hj
    obtain ⟨j', hj', rfl⟩ := mem_map.mp hj
    rw [claimJob_id]
    exact q.dead_apart d hd j' hj'

@[simp] theorem mem_claim :
    j ∈ (q.claim p).jobs ↔ ∃ j' ∈ q.jobs, claimJob p j' = j := by
  simp [claim]

@[simp] theorem dead_claim (q : Queue K) (p : Job K → Bool) : (q.claim p).dead = q.dead := rfl

/-! ## 3. Enqueueing -/

variable [DecidableEq K]

/-- Whether a pending job holds the slot. -/
def hasPending (q : Queue K) (s : Slot K) : Bool :=
  q.jobs.any fun j => !j.claimed && decide (j.slot = s)

variable {s : Slot K} {js : List (Job K)}

theorem hasPending_iff : q.hasPending s = true ↔ q.Pending s := by
  simp [hasPending, Pending]

instance (q : Queue K) (s : Slot K) : Decidable (q.Pending s) :=
  decidable_of_iff _ hasPending_iff

instance (q : Queue K) (k : K) : Decidable (q.Live k) := by unfold Live; infer_instance

instance (q : Queue K) (k : K) : Decidable (q.Dead k) := by unfold Dead; infer_instance

/-- `INSERT INTO postvec.jobs ... ON CONFLICT (registry_id, op, pk_value, chunk_id) WHERE
    claimed_at IS NULL DO NOTHING`. -/
def insertPending (q : Queue K) (s : Slot K) (attempts : Nat) : Queue K :=
  if h : q.Pending s then q
  else
    { jobs := q.jobs ++ [⟨q.nextId, s, attempts, false⟩]
      dead := q.dead
      nextId := q.nextId + 1
      ids_lt := by
        intro j hj
        rcases mem_append.mp hj with hj | hj
        · exact Nat.lt_succ_of_lt (q.ids_lt j hj)
        · rw [mem_singleton.mp hj]
          exact Nat.lt_succ_self _
      ids_nodup := by
        rw [map_append]
        refine nodup_append.mpr ⟨q.ids_nodup, nodup_singleton _, ?_⟩
        intro i hi i' hi' e
        obtain ⟨j, hj, rfl⟩ := mem_map.mp hi
        have hlt := q.ids_lt j hj
        simp only [map_cons, map_nil, mem_singleton] at hi'
        omega
      dedup := by
        rw [filter_append, map_append]
        refine nodup_append.mpr ⟨q.dedup, by simp, ?_⟩
        intro x hx y hy e
        obtain ⟨j, hj, rfl⟩ := mem_map.mp hx
        have hy' : y = s := by simpa using hy
        simp only [mem_filter, Bool.not_eq_true'] at hj
        exact h ⟨j, hj.1, hj.2, e.trans hy'⟩
      dead_lt := fun d hd => Nat.lt_succ_of_lt (q.dead_lt d hd)
      dead_apart := by
        intro d hd j hj
        rcases mem_append.mp hj with hj | hj
        · exact q.dead_apart d hd j hj
        · rw [mem_singleton.mp hj]
          exact Nat.ne_of_lt (q.dead_lt d hd) }

theorem mem_insertPending {a : Nat} :
    j ∈ (q.insertPending s a).jobs ↔
      j ∈ q.jobs ∨ (¬ q.Pending s ∧ j = ⟨q.nextId, s, a, false⟩) := by
  unfold insertPending
  split
  · rename_i h
    simp [h]
  · rename_i h
    simp [h]

@[simp] theorem dead_insertPending (q : Queue K) (s : Slot K) (a : Nat) :
    (q.insertPending s a).dead = q.dead := by
  unfold insertPending
  split <;> rfl

theorem le_nextId_insertPending (q : Queue K) (s : Slot K) (a : Nat) :
    q.nextId ≤ (q.insertPending s a).nextId := by
  unfold insertPending
  split
  · exact Nat.le_refl _
  · exact Nat.le_succ _

/-- After the insert the slot is pending. -/
theorem pending_insertPending (q : Queue K) (s : Slot K) (a : Nat) :
    (q.insertPending s a).Pending s := by
  by_cases h : q.Pending s
  · obtain ⟨j, hj, hp⟩ := h
    exact ⟨j, mem_insertPending.mpr (.inl hj), hp⟩
  · exact ⟨_, mem_insertPending.mpr (.inr ⟨h, rfl⟩), rfl, rfl⟩

/-- Several inserts, one after the other. -/
def insertAll (q : Queue K) (js : List (Slot K × Nat)) : Queue K :=
  js.foldl (fun q j => q.insertPending j.1 j.2) q

@[simp] theorem insertAll_cons (q : Queue K) (j : Slot K × Nat) (js : List (Slot K × Nat)) :
    q.insertAll (j :: js) = (q.insertPending j.1 j.2).insertAll js := rfl

@[simp] theorem dead_insertAll : ∀ (js : List (Slot K × Nat)) (q : Queue K),
    (q.insertAll js).dead = q.dead
  | [], _ => rfl
  | j :: js, q => by rw [insertAll_cons, dead_insertAll js, dead_insertPending]

theorem le_nextId_insertAll : ∀ (js : List (Slot K × Nat)) (q : Queue K),
    q.nextId ≤ (q.insertAll js).nextId
  | [], _ => Nat.le_refl _
  | _ :: js, q => Nat.le_trans (le_nextId_insertPending q _ _) (le_nextId_insertAll js _)

theorem mem_insertAll_of_mem : ∀ (js : List (Slot K × Nat)) {q : Queue K},
    j ∈ q.jobs → j ∈ (q.insertAll js).jobs
  | [], _, h => h
  | _ :: js, _, h => mem_insertAll_of_mem js (mem_insertPending.mpr (.inl h))

theorem Pending.insertAll (js : List (Slot K × Nat))
    (h : q.Pending s) : (q.insertAll js).Pending s := by
  obtain ⟨j, hj, hp⟩ := h
  exact ⟨j, mem_insertAll_of_mem js hj, hp⟩

theorem pending_insertAll {a : Nat} : ∀ (js : List (Slot K × Nat)) (q : Queue K),
    (s, a) ∈ js → (q.insertAll js).Pending s
  | j :: js, q, h => by
    rcases mem_cons.mp h with h | h
    · rw [insertAll_cons, ← h]
      exact (pending_insertPending q s a).insertAll js
    · exact pending_insertAll js _ h

/-- A job that was not there before is pending, has a new id, and is one of the inserted ones. -/
theorem mem_insertAll_exact : ∀ (js : List (Slot K × Nat)) (q : Queue K),
    j ∈ (q.insertAll js).jobs → j ∈ q.jobs ∨
      (j.claimed = false ∧ q.nextId ≤ j.id ∧ (j.slot, j.attempts) ∈ js)
  | [], _, h => .inl h
  | j' :: js, q, h => by
    rcases mem_insertAll_exact js _ h with h | ⟨hp, hid, ha⟩
    · rcases mem_insertPending.mp h with h | ⟨-, rfl⟩
      · exact .inl h
      · exact .inr ⟨rfl, Nat.le_refl _, mem_cons_self⟩
    · have hle := le_nextId_insertPending q j'.1 j'.2
      exact .inr ⟨hp, Nat.le_trans hle hid, mem_cons_of_mem _ ha⟩

theorem mem_insertAll (js : List (Slot K × Nat)) (q : Queue K) (h : j ∈ (q.insertAll js).jobs) :
    j ∈ q.jobs ∨ (j.claimed = false ∧ q.nextId ≤ j.id ∧ ∃ a, (j.slot, a) ∈ js) := by
  rcases mem_insertAll_exact js q h with h | ⟨hp, hid, ha⟩
  · exact .inl h
  · exact .inr ⟨hp, hid, _, ha⟩

/-! ## 4. Releasing claimed jobs -/

/-- `DISTINCT ON (registry_id, op, pk_value, chunk_id) ... ORDER BY id DESC`. -/
def newestPerSlot (js : List (Job K)) : List (Job K) :=
  js.filter fun j => !js.any fun j' => decide (j'.slot = j.slot) && decide (j.id < j'.id)

/-- `unclaim_jobs_inner`: the jobs are deleted and enqueued again under new ids, with their
    attempts, or one fewer when the claim is refunded. -/
def unclaimJobs (q : Queue K) (ids : List Nat) (refund : Bool) : Queue K :=
  (q.deleteJobs fun j => ids.contains j.id).insertAll
    ((newestPerSlot (q.jobs.filter fun j => ids.contains j.id)).map fun j =>
      (j.slot, if refund then j.attempts - 1 else j.attempts))

/-- Every slot of the list has a newest job. -/
theorem exists_newestPerSlot {m : Nat} (hm : ∀ x ∈ js, x.id < m)
    (h : j ∈ js) : ∃ j' ∈ newestPerSlot js, j'.slot = j.slot := by
  -- induction on how far the id is below the bound: a newer job of the slot is nearer to it
  induction hd : m - j.id using Nat.strongRecOn generalizing j with
  | ind d ih =>
    by_cases hn : j ∈ newestPerSlot js
    · exact ⟨j, hn, rfl⟩
    · simp only [newestPerSlot, mem_filter, h, true_and, Bool.not_eq_true',
        Bool.not_eq_false, any_eq_true, Bool.and_eq_true, decide_eq_true_eq] at hn
      obtain ⟨j', hj', hs, hlt⟩ := hn
      have := hm j' hj'
      obtain ⟨j'', hj'', e⟩ := ih (m - j'.id) (by omega) hj' rfl
      exact ⟨j'', hj'', e.trans hs⟩

theorem mem_of_mem_newestPerSlot (h : j ∈ newestPerSlot js) :
    j ∈ js := mem_of_mem_filter h

@[simp] theorem dead_unclaimJobs (q : Queue K) (ids : List Nat) (r : Bool) :
    (q.unclaimJobs ids r).dead = q.dead := by
  simp [unclaimJobs]

theorem le_nextId_unclaimJobs (q : Queue K) (ids : List Nat) (r : Bool) :
    q.nextId ≤ (q.unclaimJobs ids r).nextId :=
  le_nextId_insertAll _ (q.deleteJobs _)

variable {r : Bool} {ids : List Nat}

/-- The other jobs stay. -/
theorem mem_unclaimJobs_of_notMem
    (h : j ∈ q.jobs) (hid : j.id ∉ ids) : j ∈ (q.unclaimJobs ids r).jobs :=
  mem_insertAll_of_mem _ (mem_deleteJobs.mpr ⟨h, by simpa using hid⟩)

/-- The slot of a released job is pending afterwards. -/
theorem pending_unclaimJobs
    (h : j ∈ q.jobs) (hid : j.id ∈ ids) : (q.unclaimJobs ids r).Pending j.slot := by
  have hm : j ∈ q.jobs.filter fun j => ids.contains j.id := by simp [h, hid]
  obtain ⟨j', hj', e⟩ := exists_newestPerSlot
    (fun x hx => q.ids_lt x (mem_of_mem_filter hx)) hm
  rw [← e]
  exact pending_insertAll _ _ (mem_map.mpr ⟨j', hj', rfl⟩)

/-- A job found afterwards was not released, or is pending, under a new id, in the slot of a
    released job and with its attempts. -/
theorem mem_unclaimJobs_exact (h : j ∈ (q.unclaimJobs ids r).jobs) :
    (j ∈ q.jobs ∧ j.id ∉ ids) ∨
      (j.claimed = false ∧ q.nextId ≤ j.id ∧ ∃ j' ∈ q.jobs, j'.id ∈ ids ∧ j'.slot = j.slot ∧
        j.attempts = if r then j'.attempts - 1 else j'.attempts) := by
  rcases mem_insertAll_exact _ _ h with h | ⟨hp, hid, ha⟩
  · rw [mem_deleteJobs] at h
    exact .inl ⟨h.1, by simpa using h.2⟩
  · obtain ⟨j', hj', e⟩ := mem_map.mp ha
    have hm := mem_filter.mp (mem_of_mem_newestPerSlot hj')
    obtain ⟨es, ea⟩ := Prod.mk.inj e
    exact .inr ⟨hp, hid, j', hm.1, by simpa using hm.2, es, ea.symm⟩

theorem mem_unclaimJobs (h : j ∈ (q.unclaimJobs ids r).jobs) :
    (j ∈ q.jobs ∧ j.id ∉ ids) ∨
      (j.claimed = false ∧ q.nextId ≤ j.id ∧ ∃ j' ∈ q.jobs, j'.id ∈ ids ∧ j'.slot = j.slot) := by
  rcases mem_unclaimJobs_exact h with h | ⟨hp, hid, j', hj', hi, es, -⟩
  · exact .inl h
  · exact .inr ⟨hp, hid, j', hj', hi, es⟩

/-- The pending job of the slot is a new one, or the one that held the slot. -/
theorem unclaim_pending (hj : j ∈ q.jobs) (hi : j.id ∈ ids) :
    ∃ j' ∈ (q.unclaimJobs ids r).jobs, j'.claimed = false ∧ j'.slot = j.slot ∧
      (q.nextId ≤ j'.id ∨ j' ∈ q.jobs) := by
  obtain ⟨j', hj', hp, hs⟩ := pending_unclaimJobs (r := r) hj hi
  refine ⟨j', hj', hp, hs, ?_⟩
  rcases mem_unclaimJobs hj' with ⟨h, -⟩ | ⟨-, h, -⟩
  · exact .inr h
  · exact .inl h

/-- Where some jobs are dead-lettered and some released, a job is dead, its slot has a pending job,
    or it stays. -/
theorem moved_unclaimJobs (r : Bool) (p : Job K → Bool) (ids : List Nat) (h : j ∈ q.jobs) :
    j ∈ ((q.moveToDead p).unclaimJobs ids r).dead ∨
    (p j = false ∧ j.id ∈ ids ∧ ∃ j' ∈ ((q.moveToDead p).unclaimJobs ids r).jobs,
      j'.claimed = false ∧ j'.slot = j.slot ∧ (q.nextId ≤ j'.id ∨ j' ∈ q.jobs)) ∨
    (j.id ∉ ids ∧ j ∈ ((q.moveToDead p).unclaimJobs ids r).jobs) := by
  by_cases hp : p j = true
  · exact .inl (by simp [h, hp])
  have hj : j ∈ (q.moveToDead p).jobs := mem_deleteJobs.mpr ⟨h, by simpa using hp⟩
  by_cases hi : j.id ∈ ids
  · obtain ⟨j', hj', hc, hs, ho⟩ := unclaim_pending (r := r) hj hi
    exact .inr (.inl ⟨by simpa using hp, hi, j', hj', hc, hs,
      ho.imp_right fun ho => (mem_deleteJobs.mp ho).1⟩)
  · exact .inr (.inr ⟨hi, mem_unclaimJobs_of_notMem hj hi⟩)

/-! ## 5. What a change leaves alone -/

/-- The jobs of `q'` are jobs of `q`, which keep their slot and do not become pending, or have a new
    id. -/
structure Grows (q q' : Queue K) : Prop where
  new : ∀ j ∈ q'.jobs,
    (∃ j' ∈ q.jobs, j'.id = j.id ∧ j'.slot = j.slot ∧ (j.claimed = false → j'.claimed = false)) ∨
      q.nextId ≤ j.id
  next : q.nextId ≤ q'.nextId

/-- `q'` comes from `q` by changing only jobs whose id is in `ids` and adding jobs under new ids;
    a changed job keeps its slot and does not become pending, and nothing dead is lost. -/
structure Keeps (ids : Nat → Prop) (q q' : Queue K) : Prop where
  jobs : ∀ j ∈ q.jobs, ¬ ids j.id → j ∈ q'.jobs
  dead : ∀ j ∈ q.dead, j ∈ q'.dead
  new : ∀ j ∈ q'.jobs,
    (∃ j' ∈ q.jobs, j'.id = j.id ∧ j'.slot = j.slot ∧ (j.claimed = false → j'.claimed = false)) ∨
      q.nextId ≤ j.id
  next : q.nextId ≤ q'.nextId

section Keeps

variable {ids : Nat → Prop} {q' q'' : Queue K} {bad deferred : List Nat}

section

omit [DecidableEq K]

/-- A job that was claimed still is, with the slot it had, if it is there. -/
theorem Grows.claimed (h : Grows q q') {i : Nat} {R : Slot K → Prop} (hi : i < q.nextId)
    (hold : ∀ j ∈ q.jobs, j.id = i → j.claimed = true ∧ R j.slot) {j : Job K} (hj : j ∈ q'.jobs)
    (e : j.id = i) : j.claimed = true ∧ R j.slot := by
  rcases h.new j hj with ⟨j', hj', hid, hs, hc⟩ | hlt
  · obtain ⟨hcl, hR⟩ := hold j' hj' (hid.trans e)
    refine ⟨?_, hs ▸ hR⟩
    by_contra hp
    rw [hc (by simpa using hp)] at hcl
    cases hcl
  · omega

theorem Grows.trans (h : Grows q q') (h' : Grows q' q'') : Grows q q'' := by
  refine ⟨fun j hj => ?_, Nat.le_trans h.next h'.next⟩
  rcases h'.new j hj with ⟨j₁, hj₁, e, es, hc⟩ | hid
  · rcases h.new j₁ hj₁ with ⟨j₀, hj₀, e', es', hc'⟩ | hid
    · exact .inl ⟨j₀, hj₀, e'.trans e, es'.trans es, fun hp => hc' (hc hp)⟩
    · exact .inr (e ▸ hid)
  · exact .inr (Nat.le_trans h.next hid)

theorem Keeps.grows (h : Keeps ids q q') : Grows q q' := ⟨h.new, h.next⟩

theorem Keeps.trans (h : Keeps ids q q') (h' : Keeps ids q' q'') : Keeps ids q q'' where
  jobs := fun j hj hi => h'.jobs j (h.jobs j hj hi) hi
  dead := fun j hj => h'.dead j (h.dead j hj)
  new := (h.grows.trans h'.grows).new
  next := Nat.le_trans h.next h'.next

theorem Keeps.mono {ids' : Nat → Prop} (h : Keeps ids q q') (hi : ∀ i, ids i → ids' i) :
    Keeps ids' q q' :=
  ⟨fun j hj hn => h.jobs j hj fun hj' => hn (hi _ hj'), h.dead, h.new, h.next⟩

theorem Keeps.isDead (h : Keeps ids q q') {k : K} (hd : q.Dead k) : q'.Dead k := by
  obtain ⟨j, hj, e⟩ := hd
  exact ⟨j, h.dead j hj, e⟩

theorem keeps_deleteJobs (p : Job K → Bool) (hp : ∀ j ∈ q.jobs, p j = true → ids j.id) :
    Keeps ids q (q.deleteJobs p) where
  jobs := by
    intro j hj hn
    refine mem_deleteJobs.mpr ⟨hj, ?_⟩
    by_contra hc
    exact hn (hp j hj (by simpa using hc))
  dead := fun _ hj => hj
  new := fun j hj => .inl ⟨j, (mem_deleteJobs.mp hj).1, rfl, rfl, id⟩
  next := Nat.le_refl _

theorem keeps_moveToDead (p : Job K → Bool) (hp : ∀ j ∈ q.jobs, p j = true → ids j.id) :
    Keeps ids q (q.moveToDead p) where
  jobs := (keeps_deleteJobs p hp).jobs
  dead := fun _ hj => mem_dead_moveToDead.mpr (.inl hj)
  new := (keeps_deleteJobs p hp).new
  next := Nat.le_refl _

theorem keeps_claim (p : Job K → Bool) (hp : ∀ j ∈ q.jobs, p j = true → ids j.id) :
    Keeps ids q (q.claim p) where
  jobs := by
    intro j hj hn
    refine mem_claim.mpr ⟨j, hj, ?_⟩
    unfold claimJob
    rw [if_neg]
    intro hc
    simp only [Bool.and_eq_true] at hc
    exact hn (hp j hj hc.2)
  dead := fun _ hj => hj
  new := by
    intro j hj
    obtain ⟨j', hj', rfl⟩ := mem_claim.mp hj
    exact .inl ⟨j', hj', (claimJob_id p j').symm, (claimJob_slot p j').symm,
      fun hc => (claimJob_pending hc).2⟩
  next := Nat.le_refl _

end

theorem keeps_insertAll (js : List (Slot K × Nat)) : Keeps ids q (q.insertAll js) where
  jobs := fun _ hj _ => mem_insertAll_of_mem js hj
  dead := fun _ hj => by rw [dead_insertAll]; exact hj
  new := by
    intro j hj
    rcases mem_insertAll js q hj with hj | ⟨-, hid, -⟩
    · exact .inl ⟨j, hj, rfl, rfl, id⟩
    · exact .inr hid
  next := le_nextId_insertAll js q

theorem keeps_unclaimJobs (is : List Nat) (r : Bool) (hp : ∀ i ∈ is, ids i) :
    Keeps ids q (q.unclaimJobs is r) :=
  (keeps_deleteJobs _ fun _ _ hc => hp _ (by simpa using hc)).trans (keeps_insertAll _)

omit [DecidableEq K] in
/-- The jobs a claim selects are claimed afterwards. -/
theorem claimed_of_mem_claim {ids : List Nat} (h : j ∈ (q.claim fun j => ids.contains j.id).jobs)
    (hid : j.id ∈ ids) : j.claimed = true := by
  obtain ⟨j', hj', rfl⟩ := mem_claim.mp h
  rw [claimJob_id] at hid
  by_contra hc
  obtain ⟨e, hp⟩ := claimJob_pending (by simpa using hc)
  have e' : (claimJob (fun j => ids.contains j.id) j').claimed = true := by
    simp [claimJob, hp, hid]
  exact hc e'

/-- Of the jobs just claimed, the `bad` ones are dead-lettered and the `deferred` ones released. -/
theorem keeps_sortClaimed {ids : List Nat} (hbad : ∀ i ∈ bad, i ∈ ids)
    (hdeferred : ∀ i ∈ deferred, i ∈ ids) : Keeps (· ∈ ids) q
      (((q.claim fun j => ids.contains j.id).moveToDead fun j => bad.contains j.id).unclaimJobs
        deferred r) :=
  ((keeps_claim _ fun j _ hj => by simpa using hj).trans
    (keeps_moveToDead _ fun j _ hj => hbad _ (by simpa using hj))).trans
    (keeps_unclaimJobs _ _ hdeferred)

/-- The others stay as they were claimed. -/
theorem claimed_sortClaimed {ids : List Nat} {c : Job K}
    (hc : c ∈ (q.claim fun j => ids.contains j.id).jobs) (hi : c.id ∈ ids) (e : c.id = j.id)
    (hj : j ∈ (((q.claim fun j => ids.contains j.id).moveToDead fun j =>
      bad.contains j.id).unclaimJobs deferred r).jobs) : c = j ∧ j.claimed = true := by
  rcases mem_unclaimJobs hj with ⟨hj, -⟩ | ⟨-, hlt, -⟩
  · rw [jobs_moveToDead, mem_deleteJobs] at hj
    obtain rfl : c = j := eq_of_id _ hc hj.1 e
    exact ⟨rfl, claimed_of_mem_claim hc hi⟩
  · have := ids_lt _ c hc
    rw [nextId_moveToDead] at hlt
    omega

end Keeps

/-! ## 6. Changes to child jobs only -/

section Sidesteps

variable {q' q'' : Queue K}

omit [DecidableEq K] in
theorem Grows.refl (q : Queue K) : Grows q q :=
  ⟨fun j hj => .inl ⟨j, hj, rfl, rfl, id⟩, Nat.le_refl _⟩

/-- `q'` comes from `q` by changing embed jobs; the refresh jobs are the same, and nothing dead is
    lost. -/
structure Sidesteps (q q' : Queue K) : Prop where
  grows : Grows q q'
  kept : ∀ j ∈ q.jobs, j.slot.op = .refresh → j ∈ q'.jobs
  old : ∀ j ∈ q'.jobs, j.slot.op = .refresh → j ∈ q.jobs
  dead : ∀ j ∈ q.dead, j ∈ q'.dead

section

omit [DecidableEq K]

theorem Sidesteps.trans (h : Sidesteps q q') (h' : Sidesteps q' q'') : Sidesteps q q'' where
  grows := h.grows.trans h'.grows
  kept := fun j hj e => h'.kept j (h.kept j hj e) e
  old := fun j hj e => h.old j (h'.old j hj e) e
  dead := fun j hj => h'.dead j (h.dead j hj)

variable (hp : ∀ j ∈ q.jobs, p j = true → j.slot.op = .embed)
include hp

theorem sidesteps_deleteJobs : Sidesteps q (q.deleteJobs p) where
  grows := ⟨fun j hj => .inl ⟨j, (mem_deleteJobs.mp hj).1, rfl, rfl, id⟩, Nat.le_refl _⟩
  kept := by
    intro j hj e
    refine mem_deleteJobs.mpr ⟨hj, ?_⟩
    by_contra hc
    rw [hp j hj (by simpa using hc)] at e
    cases e
  old := fun j hj _ => (mem_deleteJobs.mp hj).1
  dead := fun _ hj => hj

theorem sidesteps_moveToDead : Sidesteps q (q.moveToDead p) where
  grows := ⟨(sidesteps_deleteJobs hp).grows.new, Nat.le_refl _⟩
  kept := (sidesteps_deleteJobs hp).kept
  old := (sidesteps_deleteJobs hp).old
  dead := fun _ hj => mem_dead_moveToDead.mpr (.inl hj)

theorem claimJob_of_refresh (hj : j ∈ q.jobs) (e : j.slot.op = .refresh) : claimJob p j = j := by
  unfold claimJob
  rw [if_neg]
  intro hc
  simp only [Bool.and_eq_true] at hc
  rw [hp j hj hc.2] at e
  cases e

theorem sidesteps_claim : Sidesteps q (q.claim p) where
  grows := by
    have h : Keeps (fun _ => True) q (q.claim p) := keeps_claim p fun _ _ _ => trivial
    exact h.grows
  kept := fun j hj e => mem_claim.mpr ⟨j, hj, claimJob_of_refresh hp hj e⟩
  old := by
    intro j hj e
    obtain ⟨j', hj', rfl⟩ := mem_claim.mp hj
    rw [claimJob_slot] at e
    rw [claimJob_of_refresh hp hj' e]
    exact hj'
  dead := fun _ hj => hj

end

theorem sidesteps_unclaimJobs {is : List Nat} (r : Bool)
    (hp : ∀ j ∈ q.jobs, j.id ∈ is → j.slot.op = .embed) : Sidesteps q (q.unclaimJobs is r) where
  grows := by
    have h : Keeps (fun _ => True) q (q.unclaimJobs is r) :=
      keeps_unclaimJobs is r fun _ _ => trivial
    exact h.grows
  kept := by
    intro j hj e
    refine mem_unclaimJobs_of_notMem hj fun hi => ?_
    rw [hp j hj hi] at e
    cases e
  old := by
    intro j hj e
    rcases mem_unclaimJobs hj with ⟨hj, -⟩ | ⟨-, -, j', hj', hi, es⟩
    · exact hj
    · rw [← es, hp j' hj' hi] at e
      cases e
  dead := fun j hj => by rw [dead_unclaimJobs]; exact hj

end Sidesteps

end Queue

/-! ## 7. Releasing failed or stale jobs -/

variable [DecidableEq K] {q : Queue K}

/-- Jobs whose attempts are used up are dead-lettered, the others return to pending. -/
def releaseJobs (q : Queue K) (maxRetries : Nat) (ids : List Nat) : Queue K :=
  (q.moveToDead fun j => ids.contains j.id && decide (j.attempts > maxRetries)).unclaimJobs ids
    false

theorem keeps_releaseJobs (q : Queue K) (m : Nat) (ids : List Nat) :
    Queue.Keeps (· ∈ ids) q (releaseJobs q m ids) := by
  have k₁ : Queue.Keeps (· ∈ ids) q
      (q.moveToDead fun j => ids.contains j.id && decide (j.attempts > m)) :=
    Queue.keeps_moveToDead _ fun j _ hj => by
      simp only [Bool.and_eq_true, contains_iff_mem] at hj
      exact hj.1
  exact k₁.trans (Queue.keeps_unclaimJobs _ _ fun _ h => h)

/-- A released job is dead or pending again. -/
theorem releaseJobs_moved {m : Nat} {ids : List Nat} {j : Job K} (hj : j ∈ q.jobs) :
    (releaseJobs q m ids).Dead j.slot.pk ∨ (releaseJobs q m ids).Live j.slot.pk := by
  rcases Queue.moved_unclaimJobs false _ ids hj with h | ⟨-, -, j', hm, -, e, -⟩ | ⟨-, h⟩
  · exact .inl ⟨j, h, rfl⟩
  · exact .inr ⟨j', hm, by rw [e]⟩
  · exact .inr ⟨j, h, rfl⟩

theorem releaseJobs_live {k : K} (m : Nat) (ids : List Nat)
    (h : q.Dead k ∨ q.Live k) : (releaseJobs q m ids).Dead k ∨ (releaseJobs q m ids).Live k := by
  rcases h with h | ⟨j, hj, rfl⟩
  · exact .inl ((keeps_releaseJobs q m ids).isDead h)
  · exact releaseJobs_moved hj

end Postvec
