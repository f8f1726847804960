import Postvec.Extension.Chunk
import Postvec.Extension.ColumnSpec

/-!
# The extension's chunk mode: what the triggers and the worker do

* `docTriggers_chunk`, `refreshPurges_chunk`: the chunk triggers do what `Source/Docs.lean` asks of
  them, in both modes;
* `Queue.Sidesteps`: the claims, write-backs and releases of child jobs leave the refreshes alone;
* one lemma for each kind of worker step.
-/

namespace Postvec

open Machine List Queue

/-! ## 1. The triggers -/

section Triggers

variable {K δ T : Type*}

variable {p : K → Bool} {jobs : Slot K → Bool → Bool} {c : Cmd K} {k : K} {s : Slot K}
  {source : δ → Option T} {d : δ}

theorem mem_purgeDocs (h : c ∈ purgeDocs p jobs) : c = .cutChunks p ∨
      c = .deleteJobs (fun s claimed => p s.pk && jobs s claimed) ∨
      c = .deleteDead fun s => p s.pk := by
  simpa [purgeDocs] using h

theorem purgeDocs_avoids (jobs : Slot K → Bool → Bool) (h : p k = false) :
    ∀ c ∈ purgeDocs p jobs, c.avoids k := by
  intro c hc
  rcases mem_purgeDocs hc with rfl | rfl | rfl
  · exact h
  · intro s b e
    simp [e, h]
  · intro s e
    simp [e, h]

theorem purgeDocs_spares
    (h : p s.pk = false ∨ jobs s false = false) : ∀ c ∈ purgeDocs p jobs, c.spares s := by
  intro c hc
  rcases mem_purgeDocs hc with rfl | rfl | rfl
  · trivial
  · simp only [Cmd.spares, Bool.and_eq_false_iff]
    exact h
  · trivial

theorem purgeDocs_cuts (jobs : Slot K → Bool → Bool) (h : p k = true) :
    Cuts (purgeDocs p jobs) k :=
  ⟨p, mem_cons_self, h⟩

theorem enqueue_notMem_purgeDocs (p : K → Bool) (jobs : Slot K → Bool → Bool) (s : Slot K) :
    Cmd.enqueue s ∉ purgeDocs p jobs := by
  simp [purgeDocs]

theorem mem_enqueueRefresh :
    c ∈ enqueueRefresh source k d ↔ c = .enqueue (refreshSlot k) ∧ source d ≠ none := by
  unfold enqueueRefresh
  by_cases h : source d = none
  · simp [h]
  · simp [h, Option.isSome_iff_ne_none]

theorem lasting_enqueueRefresh (h : source d ≠ none)
    (cs : List (Cmd K)) : Lasting (cs ++ enqueueRefresh source k d) (refreshSlot k) := by
  refine Lasting.append_left ?_ cs
  exact lasting_of_mem (mem_enqueueRefresh.mpr ⟨rfl, h⟩) fun c hc =>
    ⟨_, (mem_enqueueRefresh.mp hc).1⟩

theorem deleteJobs_mem_purgeDocs (h : p k = true) :
    ∃ p', Cmd.deleteJobs p' ∈ purgeDocs p notClaimedRefresh ∧
      p' (refreshSlot k) false = true :=
  ⟨_, mem_cons_of_mem _ mem_cons_self, by simp [notClaimedRefresh, refreshSlot, h]⟩

variable [DecidableEq K] {imgs : List (Image K δ)} {i : Image K δ} {ds : List (K × δ)}

/-- What a row trigger does, one by one. -/
theorem forall_rowTrigger {Q : Cmd K → Prop} {b : Prop} [Decidable b]
    (h : ¬ b → (∀ c ∈ purgeDocs (fun k => decide (k = i.oldKey)) jobs, Q c) ∧
      Q (.enqueue (refreshSlot i.newKey))) :
    ∀ c ∈ if b then [] else purgeDocs (fun k => decide (k = i.oldKey)) jobs ++
      enqueueRefresh source i.newKey i.newDoc, Q c := by
  intro c hc
  split at hc
  · cases hc
  · rename_i hb
    rcases mem_append.mp hc with hc | hc
    · exact (h hb).1 c hc
    · rw [(mem_enqueueRefresh.mp hc).1]
      exact (h hb).2

/-- The key trigger of a row deletes no refresh of a key the row does not leave. -/
theorem trgChunkPk_spares (h : i.oldKey ≠ i.newKey → i.oldKey ≠ k) :
    ∀ c ∈ trgChunkPk source i, c.spares (refreshSlot k) :=
  forall_rowTrigger fun hne => ⟨purgeDocs_spares
    (.inl (decide_eq_false (Ne.symm (h hne)))), trivial⟩

/-- A re-keyed row's trigger, and a changed row's in row mode, enqueues it last. -/
theorem lasting_trgChunkPk (h : i.oldKey ≠ i.newKey) (hs : source i.newDoc ≠ none) :
    Lasting (trgChunkPk source i) (refreshSlot i.newKey) := by
  unfold trgChunkPk
  rw [if_neg h]
  exact lasting_enqueueRefresh hs _

theorem rowTrigger_cuts {b : Prop} [Decidable b] (h : ¬ b) :
    Cuts (if b then [] else purgeDocs (fun k => decide (k = i.oldKey)) jobs ++
      enqueueRefresh source i.newKey i.newDoc) i.oldKey := by
  rw [if_neg h]
  exact (purgeDocs_cuts _ (by simp)).mono fun c hc => mem_append_left _ hc

theorem trgChunkPk_avoids [BEq δ] (h : (i.oldKey ≠ k ∧ i.newKey ≠ k) ∨ i.Same) :
    ∀ c ∈ trgChunkPk source i, c.avoids k :=
  forall_rowTrigger fun hne => by
    have hk := h.resolve_right fun hs => hne hs.1
    exact ⟨purgeDocs_avoids _ (decide_eq_false (Ne.symm hk.1)), hk.2⟩

theorem trgChunkDel_enqueues (mode : TriggerMode) (ds : List (K × δ)) (s : Slot K) :
    Cmd.enqueue s ∉ trgChunkDel mode ds := by
  cases mode with
  | row =>
    intro h
    obtain ⟨d, -, h⟩ := mem_flatMap.mp h
    exact enqueue_notMem_purgeDocs _ _ s h
  | statement => exact enqueue_notMem_purgeDocs _ _ s

/-- What a `DELETE` does is done for each of its rows. -/
theorem trgChunkDel_mem (mode : TriggerMode) {d : K × δ} (hd : d ∈ ds) :
    ∃ p, p d.1 = true ∧ ∀ c ∈ purgeDocs p notClaimedRefresh, c ∈ trgChunkDel mode ds := by
  cases mode with
  | row => exact ⟨fun k => decide (k = d.1), by simp, fun c hc => mem_flatMap.mpr ⟨d, hd, hc⟩⟩
  | statement =>
    refine ⟨fun k => (ds.map Prod.fst).contains k, ?_, fun c hc => hc⟩
    exact contains_iff_mem.mpr (mem_map_of_mem hd)

theorem trgChunkDel_avoids (mode : TriggerMode) (hk : k ∉ ds.map Prod.fst) :
    ∀ c ∈ trgChunkDel mode ds, c.avoids k := by
  cases mode with
  | row =>
    intro c hc
    obtain ⟨d, hd, hc⟩ := mem_flatMap.mp hc
    refine purgeDocs_avoids (p := fun k => decide (k = d.1)) _ (decide_eq_false fun e => hk ?_) c hc
    exact e ▸ mem_map_of_mem hd
  | statement =>
    refine purgeDocs_avoids _ ?_
    rw [← Bool.not_eq_true, contains_iff_mem]
    exact hk

variable [BEq δ]

theorem forall_trgChunkUpdStmt {Q : Cmd K → Prop}
    (hp : ∀ c ∈ purgeDocs (fun k => ((changedDocs imgs).map Prod.fst).contains k) embedJob, Q c)
    (he : ∀ d ∈ changedDocs imgs, Q (.enqueue (refreshSlot d.1))) :
    ∀ c ∈ trgChunkUpdStmt source imgs, Q c := by
  intro c hc
  rcases mem_append.mp hc with hc | hc
  · exact hp c hc
  · obtain ⟨d, hd, hc⟩ := mem_flatMap.mp hc
    rw [(mem_enqueueRefresh.mp hc).1]
    exact he d hd

/-- What an `UPDATE` does, row by row. -/
theorem forall_onUpdate (mode : TriggerMode) {Q : Cmd K → Prop}
    (hpk : ∀ i ∈ imgs, ∀ c ∈ trgChunkPk source i, Q c)
    (hrow : ∀ i ∈ imgs, ∀ c ∈ trgChunkUpdRow source i, Q c)
    (hst : ∀ c ∈ trgChunkUpdStmt source imgs, Q c) :
    ∀ c ∈ (chunkTriggers source mode).onUpdate imgs, Q c := by
  intro c hc
  cases mode with
  | row =>
    obtain ⟨i, hi, hc⟩ := mem_flatMap.mp hc
    exact (mem_append.mp hc).elim (hpk i hi c) (hrow i hi c)
  | statement =>
    rcases mem_append.mp hc with hc | hc
    · obtain ⟨i, hi, hc⟩ := mem_flatMap.mp hc
      exact hpk i hi c hc
    · exact hst c hc

theorem trgChunkUpdRow_spares : ∀ c ∈ trgChunkUpdRow source i, c.spares (refreshSlot k) :=
  forall_rowTrigger fun _ => ⟨purgeDocs_spares (.inr rfl), trivial⟩

theorem trgChunkUpdStmt_spares : ∀ c ∈ trgChunkUpdStmt source imgs, c.spares (refreshSlot k) :=
  forall_trgChunkUpdStmt (purgeDocs_spares (.inr rfl)) fun _ _ => trivial

theorem lasting_trgChunkUpdRow (h : ¬ (i.newDoc == i.oldDoc) = true) (hs : source i.newDoc ≠ none) :
    Lasting (trgChunkUpdRow source i) (refreshSlot i.newKey) := by
  unfold trgChunkUpdRow
  rw [if_neg h]
  exact lasting_enqueueRefresh hs _

theorem lasting_onUpdate (mode : TriggerMode) (ho : Orderly imgs) (hi : i ∈ imgs)
    (hne : ¬ i.Same) (hs : source i.newDoc ≠ none) :
    Lasting ((chunkTriggers source mode).onUpdate imgs) (refreshSlot i.newKey) := by
  obtain ⟨pre, post, e, hpost⟩ := ho.later hi
  have hpk : ∀ i' ∈ post, ∀ c ∈ trgChunkPk source i', c.spares (refreshSlot i.newKey) :=
    fun i' hi' => trgChunkPk_spares (hpost i' hi')
  cases mode with
  | row =>
    have hmid : Lasting (trgChunkPk source i ++ trgChunkUpdRow source i)
        (refreshSlot i.newKey) := by
      by_cases hd : (i.newDoc == i.oldDoc) = true
      · refine Lasting.append_right (lasting_trgChunkPk (fun e => hne ⟨e, hd⟩) hs) ?_
        exact trgChunkUpdRow_spares
      · exact (lasting_trgChunkUpdRow hd hs).append_left _
    simp only [chunkTriggers, e, flatMap_append, flatMap_cons]
    refine Lasting.append_left (Lasting.append_right hmid fun c hc => ?_) _
    obtain ⟨i', hi', hc⟩ := mem_flatMap.mp hc
    rcases mem_append.mp hc with hc | hc
    · exact hpk i' hi' c hc
    · exact trgChunkUpdRow_spares c hc
  | statement =>
    by_cases hk : i.oldKey = i.newKey
    · have hm := mem_changedDocs_self hi hk hne
      refine Lasting.append_left (Lasting.append_left (lasting_of_mem ?_ ?_) _) _
      · exact mem_flatMap.mpr ⟨_, hm, mem_enqueueRefresh.mpr ⟨rfl, hs⟩⟩
      · intro c hc
        obtain ⟨d, -, hc⟩ := mem_flatMap.mp hc
        exact ⟨_, (mem_enqueueRefresh.mp hc).1⟩
    · refine Lasting.append_right ?_ trgChunkUpdStmt_spares
      simp only [e, flatMap_append, flatMap_cons]
      refine Lasting.append_left (Lasting.append_right (lasting_trgChunkPk hk hs) fun c hc => ?_) _
      obtain ⟨i', hi', hc⟩ := mem_flatMap.mp hc
      exact hpk i' hi' c hc

theorem onUpdate_cuts (mode : TriggerMode) (hi : i ∈ imgs) (hne : ¬ i.Same) :
    Cuts ((chunkTriggers source mode).onUpdate imgs) i.oldKey := by
  by_cases hk : i.oldKey = i.newKey
  · cases mode with
    | row =>
      have hc : Cuts (trgChunkUpdRow source i) i.oldKey := rowTrigger_cuts fun e => hne ⟨hk, e⟩
      exact hc.mono fun c hc => mem_flatMap.mpr ⟨i, hi, mem_append_right _ hc⟩
    | statement =>
      have hm := mem_changedDocs_self hi hk hne
      refine (purgeDocs_cuts embedJob ?_).mono fun c hc =>
        mem_append_right _ (mem_append_left _ hc)
      rw [contains_iff_mem, hk]
      exact mem_map.mpr ⟨_, hm, rfl⟩
  · have hc : Cuts (trgChunkPk source i) i.oldKey := rowTrigger_cuts hk
    refine hc.mono fun c hc => ?_
    cases mode with
    | row => exact mem_flatMap.mpr ⟨i, hi, mem_append_left _ hc⟩
    | statement => exact mem_append_left _ (mem_flatMap.mpr ⟨i, hi, hc⟩)

theorem trgChunkUpdRow_avoids (h : (i.oldKey ≠ k ∧ i.newKey ≠ k) ∨ i.Same) :
    ∀ c ∈ trgChunkUpdRow source i, c.avoids k :=
  forall_rowTrigger fun hne => by
    have hk := h.resolve_right fun hs => hne hs.2
    exact ⟨purgeDocs_avoids _ (decide_eq_false (Ne.symm hk.1)), hk.2⟩

theorem trgChunkUpdStmt_avoids (ho : Orderly imgs)
    (h : ∀ i ∈ imgs, (i.oldKey ≠ k ∧ i.newKey ≠ k) ∨ i.Same) :
    ∀ c ∈ trgChunkUpdStmt source imgs, c.avoids k := by
  -- a row that kept its key and columns is not among the changed ones
  have hk : ∀ d ∈ changedDocs imgs, d.1 ≠ k := fun d hd => ho.changedDocs_ne h hd
  refine forall_trgChunkUpdStmt (purgeDocs_avoids _ ?_) hk
  rw [← Bool.not_eq_true, contains_iff_mem]
  intro hm
  obtain ⟨d, hd, e⟩ := mem_map.mp hm
  exact hk d hd e

/-- The refreshes an `UPDATE` enqueues are of its rows' new keys. -/
theorem enqueue_mem_onUpdate (mode : TriggerMode)
    (h : Cmd.enqueue s ∈ (chunkTriggers source mode).onUpdate imgs) :
    ∃ i ∈ imgs, s = refreshSlot i.newKey := by
  have hno : ∀ p jobs, ∀ c ∈ purgeDocs p jobs, c = .enqueue s →
      ∃ i ∈ imgs, s = refreshSlot i.newKey :=
    fun p jobs c hc e => absurd (e ▸ hc) (enqueue_notMem_purgeDocs p jobs s)
  have hrow : ∀ i ∈ imgs, Cmd.enqueue (refreshSlot i.newKey) = .enqueue s →
      ∃ i ∈ imgs, s = refreshSlot i.newKey :=
    fun i hi e => ⟨i, hi, (Cmd.enqueue.inj e).symm⟩
  refine forall_onUpdate mode (fun i hi => forall_rowTrigger fun _ => ⟨hno _ _, hrow i hi⟩)
    (fun i hi => forall_rowTrigger fun _ => ⟨hno _ _, hrow i hi⟩)
    (forall_trgChunkUpdStmt (hno _ _) fun d hd e => ?_) _ h rfl
  obtain ⟨n, hn, -, -, -, -, rfl⟩ := mem_changedDocs.mp hd
  exact hrow n hn e

/-- **The triggers of a recursive entry.** -/
theorem docTriggers_chunk (source : δ → Option T) (mode : TriggerMode) :
    DocTriggers source (chunkTriggers source mode : Triggers K δ) where
  insert_lasts := by
    intro rows k d hr hd
    refine lasting_of_mem (mem_flatMap.mpr ⟨_, hr, mem_enqueueRefresh.mpr ⟨rfl, hd⟩⟩) ?_
    intro c hc
    obtain ⟨r, -, hc⟩ := mem_flatMap.mp hc
    exact ⟨_, (mem_enqueueRefresh.mp hc).1⟩
  insert_avoids := by
    intro rows k hk c hc
    obtain ⟨r, hr, hc⟩ := mem_flatMap.mp hc
    rw [(mem_enqueueRefresh.mp hc).1]
    exact fun e => hk (e ▸ mem_map_of_mem hr)
  update_lasts := fun imgs ho i hi hne hs => lasting_onUpdate mode ho hi hne hs
  update_cuts := fun imgs i hi hne => onUpdate_cuts mode hi hne
  update_avoids := fun imgs ho k h => forall_onUpdate mode (fun i hi => trgChunkPk_avoids (h i hi))
    (fun i hi => trgChunkUpdRow_avoids (h i hi)) (trgChunkUpdStmt_avoids ho h)
  delete_cuts := by
    intro ds d hd
    obtain ⟨p, hp, hm⟩ := trgChunkDel_mem mode hd
    exact (purgeDocs_cuts _ hp).mono hm
  delete_avoids := fun ds k hk => trgChunkDel_avoids mode hk
  truncate_cuts := fun k => purgeDocs_cuts _ rfl
  truncate_purges := by
    intro s e
    refine ⟨?_, enqueue_notMem_purgeDocs _ _ s⟩
    rw [e]
    exact deleteJobs_mem_purgeDocs rfl
  truncate_enqueues := fun s => enqueue_notMem_purgeDocs _ _ s
  enqueues := by
    intro s
    refine ⟨?_, ?_, fun ds => trgChunkDel_enqueues mode ds s⟩
    · intro rows h
      obtain ⟨r, -, h⟩ := mem_flatMap.mp h
      rw [Cmd.enqueue.inj (mem_enqueueRefresh.mp h).1]
      rfl
    · intro imgs h
      obtain ⟨i, -, rfl⟩ := enqueue_mem_onUpdate mode h
      rfl

/-- A key that loses its row loses its pending refresh. -/
theorem refreshPurges_chunk (source : δ → Option T) (mode : TriggerMode) :
    RefreshPurges (chunkTriggers source mode : Triggers K δ) where
  update_purges := by
    intro imgs i hi hk
    refine ⟨?_, fun he => ?_⟩
    · have hne : i.oldKey ≠ i.newKey := fun e => hk (e ▸ mem_map_of_mem hi)
      obtain ⟨p, hp, hps⟩ := deleteJobs_mem_purgeDocs (k := i.oldKey)
        (p := fun k => decide (k = i.oldKey)) (by simp)
      have hm : Cmd.deleteJobs p ∈ trgChunkPk source i := by
        unfold trgChunkPk
        rw [if_neg hne]
        exact mem_append_left _ hp
      refine ⟨p, ?_, hps⟩
      cases mode with
      | row => exact mem_flatMap.mpr ⟨i, hi, mem_append_left _ hm⟩
      | statement => exact mem_append_left _ (mem_flatMap.mpr ⟨i, hi, hm⟩)
    · obtain ⟨i', hi', e⟩ := enqueue_mem_onUpdate mode he
      rw [show i.oldKey = i'.newKey from congrArg Slot.pk e] at hk
      exact hk (mem_map_of_mem hi')
  delete_purges := by
    intro ds d hd
    obtain ⟨p, hp, hm⟩ := trgChunkDel_mem mode hd
    obtain ⟨p', hp', hps⟩ := deleteJobs_mem_purgeDocs hp
    exact ⟨⟨p', hm _ hp', hps⟩, trgChunkDel_enqueues mode ds _⟩

end Triggers

/-! ## 2. Refreshing -/

section Worker

variable {K δ T C X V : Type*} {q : Queue K} {id : Nat} {j : Job K}

/-- What a refresh of `k` by the job `id` leaves in the queue: the other refreshes, and what is dead
    of other documents. -/
structure Refreshed (q q' : Queue K) (id : Nat) (k : K) : Prop where
  grows : Grows q q'
  kept : ∀ j ∈ q.jobs, j.slot.op = .refresh → j.id ≠ id → j ∈ q'.jobs
  old : ∀ j ∈ q'.jobs, j.slot.op = .refresh → j ∈ q.jobs ∧ j.id ≠ id
  dead : ∀ j ∈ q.dead, j.slot.pk ≠ k → j ∈ q'.dead

/-- Claiming one job leaves the others as they are. -/
theorem mem_claim_of_ne (hne : j.id ≠ id) :
    j ∈ (q.claim fun j => j.id == id).jobs ↔ j ∈ q.jobs := by
  have hself : ∀ j' : Job K, j'.id ≠ id → claimJob (fun j => j.id == id) j' = j' := by
    intro j' h
    simp [claimJob, h]
  rw [mem_claim]
  refine ⟨?_, fun hj => ⟨j, hj, hself j hne⟩⟩
  intro h
  obtain ⟨j', hj', rfl⟩ := h
  rw [claimJob_id] at hne
  rw [hself j' hne]
  exact hj'

theorem grows_claim (q : Queue K) (p : Job K → Bool) : Grows q (q.claim p) := by
  have h : Keeps (fun _ => True) q (q.claim p) := keeps_claim p fun _ _ _ => trivial
  exact h.grows

theorem grows_deleteJobs (q : Queue K) (p : Job K → Bool) : Grows q (q.deleteJobs p) :=
  ⟨fun j hj => .inl ⟨j, (mem_deleteJobs.mp hj).1, rfl, rfl, id⟩, Nat.le_refl _⟩

/-- The refresh job is dead-lettered. -/
theorem refreshed_dead (q : Queue K) (id : Nat) (k : K) :
    Refreshed q ((q.claim fun j => j.id == id).moveToDead fun j => j.id == id) id k where
  grows := (grows_claim q fun j => j.id == id).trans
    ⟨(grows_deleteJobs _ fun j => j.id == id).new, Nat.le_refl _⟩
  kept := by
    intro j hj _ hne
    rw [jobs_moveToDead, mem_deleteJobs]
    exact ⟨(mem_claim_of_ne hne).mpr hj, by simpa using hne⟩
  old := by
    intro j hj _
    rw [jobs_moveToDead, mem_deleteJobs] at hj
    have hne : j.id ≠ id := by simpa using hj.2
    exact ⟨(mem_claim_of_ne hne).mp hj.1, hne⟩
  dead := fun j hj _ => mem_dead_moveToDead.mpr (.inl hj)

variable [DecidableEq K]

/-- The refresh job is done, and child jobs are enqueued for the new chunks. -/
theorem refreshed_replace (q : Queue K) (id : Nat) (k : K) (cids : List Nat) :
    Refreshed q (((purgeDocument (q.claim fun j => j.id == id) k).insertAll
      (cids.map fun cid => (chunkSlot k cid, 0))).deleteJobs fun j => j.id == id) id k where
  grows := by
    have hi : Keeps (fun _ => True) (purgeDocument (q.claim fun j => j.id == id) k)
        ((purgeDocument (q.claim fun j => j.id == id) k).insertAll
          (cids.map fun cid => (chunkSlot k cid, 0))) := keeps_insertAll _
    have hp : Grows (q.claim fun j => j.id == id)
        (purgeDocument (q.claim fun j => j.id == id) k) :=
      ⟨(grows_deleteJobs _ _).new, Nat.le_refl _⟩
    exact (((grows_claim q _).trans hp).trans hi.grows).trans (grows_deleteJobs _ _)
  kept := by
    intro j hj e hne
    refine mem_deleteJobs.mpr ⟨mem_insertAll_of_mem _ ?_, by simpa using hne⟩
    rw [purgeDocument, jobs_deleteDead, mem_deleteJobs]
    exact ⟨(mem_claim_of_ne hne).mpr hj, by simp [e]⟩
  old := by
    intro j hj e
    obtain ⟨hj, hid⟩ := mem_deleteJobs.mp hj
    have hne : j.id ≠ id := by simpa using hid
    refine ⟨?_, hne⟩
    rcases mem_insertAll _ _ hj with hj | ⟨-, -, a, ha⟩
    · rw [purgeDocument, jobs_deleteDead, mem_deleteJobs] at hj
      exact (mem_claim_of_ne hne).mp hj.1
    · obtain ⟨cid, -, ec⟩ := mem_map.mp ha
      rw [← (Prod.mk.inj ec).1] at e
      cases e
  dead := by
    intro j hj hne
    rw [dead_deleteJobs, dead_insertAll, purgeDocument, mem_deleteDead]
    exact ⟨hj, by simpa using hne⟩

variable {E : ChunkEntry δ T C X V} {s s' : ChunkSys K δ C X V}

/-- What a refresh is. Either the document's chunks are replaced by its pieces, or its job is
    dead-lettered. -/
theorem processOneRefresh_cases (h : processOneRefresh E s id = some s') :
    ∃ j ∈ s.db.queue.jobs, j.id = id ∧ j.claimed = false ∧ j.slot.op = .refresh ∧
      s.db.jobLocked id = false ∧ s.db.truncated = false ∧
      s.db.shareBlocked j.slot.pk = false ∧
      ((∃ ps, E.cut (docAt s.db.rows j.slot.pk) = some ps ∧
        s' = replaceChunks s (s.db.queue.claim fun j => j.id == id) id j.slot.pk ps) ∨
      s' = { s with db := { s.db with
        queue := (s.db.queue.claim fun j => j.id == id).moveToDead fun j => j.id == id } }) := by
  unfold processOneRefresh at h
  split at h
  · cases h
  rename_i j hfind
  have hj : j ∈ s.db.queue.jobs := mem_of_find?_eq_some hfind
  have hid : j.id = id := by simpa using List.find?_some hfind
  simp only at h
  split at h
  · cases h
  rename_i hg
  simp only [Bool.or_eq_true, not_or, Bool.not_eq_true, decide_eq_false_iff_not, not_not] at hg
  obtain ⟨⟨⟨⟨⟨hc, hop⟩, hlock⟩, htr⟩, hshare⟩, -⟩ := hg
  have hcut : E.cut (docAt s.db.rows j.slot.pk) =
      ((s.db.rows.get j.slot.pk).bind fun r => E.source r.doc).elim (some []) E.split := by
    unfold DocFormat.cut docAt
    cases s.db.rows.get j.slot.pk with
    | none => rfl
    | some r =>
      rw [Option.bind_some]
      cases h' : E.source r.doc <;> simp [h']
  refine ⟨j, hj, hid, hc, hop, hlock, htr, hshare, ?_⟩
  split at h
  · rename_i hn
    rw [hn] at hcut
    exact .inl ⟨[], hcut, (Option.some.inj h).symm⟩
  · rename_i t ht
    rw [ht] at hcut
    split at h
    · exact .inr (Option.some.inj h).symm
    · split at h
      · exact .inr (Option.some.inj h).symm
      · rename_i ps hps
        exact .inl ⟨ps, hcut.trans hps, (Option.some.inj h).symm⟩

/-! ## 3. Child jobs -/

/-- The jobs being claimed or in flight. -/
def ChunkSys.held (s : ChunkSys K δ C X V) : List Nat :=
  s.inflight.map ChunkItem.id ++ s.admitted.map fun a => a.job.id

/-- The jobs being claimed or in flight are claimed, and only child jobs ever are. -/
structure ChunkSys.Flight (s : ChunkSys K δ C X V) : Prop where
  issued : ∀ i ∈ s.held, i < s.db.queue.nextId
  claimed : ∀ i ∈ s.held, ∀ j ∈ s.db.queue.jobs, j.id = i → j.claimed = true
  embeds : ∀ j ∈ s.db.queue.jobs, j.claimed = true → j.slot.op = .embed

/-- A worker's step on child jobs: the rows, the transactions and the refreshes stay; a chunk is
    written for an item in flight, or none is; an item in flight was so, or is rendered now. -/
structure Sided (E : ChunkEntry δ T C X V) (s s' : ChunkSys K δ C X V) : Prop where
  rows : s'.db.rows = s.db.rows
  txns : s'.db.txns = s.db.txns
  queue : Sidesteps s.db.queue s'.db.queue
  flight : s'.Flight
  dest : s'.dest = s.dest ∨ ∃ it ∈ s.inflight, s'.dest =
    s.dest.write (fun c => c.cid == it.cid && decide (c.pk = it.pk)) (some (E.embed it.text))
  items : ∀ it ∈ s'.inflight, it ∈ s.inflight ∨
    ∃ c, s.dest.find it.cid = some c ∧ renderChunk E s.db.rows c = some it.text

omit [DecidableEq K] in
theorem ChunkSys.Flight.embed (h : s.Flight) {i : Nat} (hi : i ∈ s.held) :
    ∀ j ∈ s.db.queue.jobs, j.id = i → j.slot.op = .embed :=
  fun j hj e => h.embeds j hj (h.claimed i hi j hj e)

omit [DecidableEq K] in
theorem ChunkSys.Flight.grows (h : s.Flight) (hq : Grows s.db.queue s'.db.queue)
    (hold : ∀ j ∈ s'.db.queue.jobs, j.slot.op = .refresh → j.claimed = true →
      j ∈ s.db.queue.jobs) (hin : ∀ i ∈ s'.held, i ∈ s.held) : s'.Flight where
  issued := fun i hi => Nat.lt_of_lt_of_le (h.issued i (hin i hi)) hq.next
  claimed := fun i hi j hj e =>
    (hq.claimed (R := fun _ => True) (h.issued i (hin i hi))
      (fun j hj e => ⟨h.claimed i (hin i hi) j hj e, trivial⟩) hj e).1
  embeds := by
    intro j hj hc
    cases hop : j.slot.op with
    | embed => rfl
    | refresh =>
      rw [h.embeds j (hold j hj hop hc) hc] at hop
      cases hop

omit [DecidableEq K] in
theorem ChunkSys.Flight.sidestep (h : s.Flight)
    (hq : Sidesteps s.db.queue s'.db.queue) (hin : ∀ i ∈ s'.held, i ∈ s.held) :
    s'.Flight :=
  h.grows hq.grows (fun j hj e _ => hq.old j hj e) hin

omit [DecidableEq K] in
/-- With fewer items in flight nothing more is held. -/
theorem ChunkSys.held_filter {p : ChunkItem K X → Bool} {i : Nat}
    (hi : i ∈ (s.inflight.filter p).map ChunkItem.id ++ s.admitted.map fun a => a.job.id) :
    i ∈ s.held := by
  rcases mem_append.mp hi with hi | hi
  · obtain ⟨it, h, rfl⟩ := mem_map.mp hi
    exact mem_append_left _ (mem_map_of_mem (mem_filter.mp h).1)
  · exact mem_append_right _ hi

/-- The end of one job of the group. -/
theorem ChunkSys.Flight.endJob (h : s.Flight) {it : ChunkItem K X} (hit : it ∈ s.inflight)
    (hq : q = s.db.queue.deleteJobs (fun j => j.id == it.id) ∨
      q = s.db.queue.moveToDead (fun j => j.id == it.id) ∨
      q = s.db.queue.unclaimJobs [it.id] false) : Sidesteps s.db.queue q := by
  have hm : it.id ∈ s.held := mem_append_left _ (mem_map_of_mem hit)
  have he : ∀ j ∈ s.db.queue.jobs, (j.id == it.id) = true → j.slot.op = .embed :=
    fun j hj e => h.embed hm j hj (by simpa using e)
  rcases hq with rfl | rfl | rfl
  · exact sidesteps_deleteJobs he
  · exact sidesteps_moveToDead he
  · exact sidesteps_unclaimJobs false fun j hj e => h.embed hm j hj (by simpa using e)

theorem applyChunk_sided (hF : s.Flight) {o : ItemOutcome}
    (h : applyChunk E s id o = some s') : Sided E s s' := by
  unfold applyChunk at h
  split at h
  · cases h
  rename_i it hfind
  have hit : it ∈ s.inflight := mem_of_find?_eq_some hfind
  -- every outcome ends the job; only a vector of the right width is written
  have hend : ∀ q dest n, (dest = s.dest ∨ dest = s.dest.write
        (fun c => c.cid == it.cid && decide (c.pk = it.pk)) (some (E.embed it.text))) →
      Sidesteps s.db.queue q →
      Sided E s { s with
        db := { s.db with queue := q, nextXid := n }
        dest
        inflight := s.inflight.filter fun it => it.id != id } := by
    intro q dest n hd hq
    exact ⟨rfl, rfl, hq, hF.sidestep hq fun _ => ChunkSys.held_filter,
      hd.imp_right fun hx => ⟨it, hit, hx⟩, fun it' h' => .inl (mem_filter.mp h').1⟩
  simp only at h
  split at h
  · cases h
  cases o with
  | ok =>
    simp only at h
    split at h
    · cases h
      exact hend _ _ _ (.inl rfl) (hF.endJob hit (.inr (.inl rfl)))
    · cases h
      exact hend _ _ _ (.inr rfl) (hF.endJob hit (.inl rfl))
  | dead =>
    cases h
    exact hend _ _ _ (.inl rfl) (hF.endJob hit (.inr (.inl rfl)))
  | retry =>
    simp only at h
    split at h
    · cases h
      exact hend _ _ _ (.inl rfl) (hF.endJob hit (.inr (.inl rfl)))
    · cases h
      exact hend _ _ _ (.inl rfl) (hF.endJob hit (.inr (.inr rfl)))

variable {ids : List Nat}

/-- Releasing child jobs. -/
theorem sidesteps_releaseJobs (m : Nat) (h : ∀ j ∈ q.jobs, j.id ∈ ids → j.slot.op = .embed) :
    Sidesteps q (releaseJobs q m ids) := by
  have h₁ : Sidesteps q
      (q.moveToDead fun j => ids.contains j.id && decide (j.attempts > m)) :=
    sidesteps_moveToDead fun j hj hp => by
      simp only [Bool.and_eq_true, contains_iff_mem] at hp
      exact h j hj hp.1
  refine h₁.trans (sidesteps_unclaimJobs false fun j hj hi => ?_)
  rw [jobs_moveToDead, mem_deleteJobs] at hj
  exact h j hj.1 hi

theorem releaseChunks_sided (hF : s.Flight)
    (h : releaseChunks E s ids = some s') : Sided E s s' := by
  unfold releaseChunks at h
  simp only [Option.ite_none_right_eq_some, Option.some.injEq, Bool.and_eq_true,
    all_eq_true, any_eq_true, beq_iff_eq] at h
  obtain ⟨⟨hfl, -⟩, rfl⟩ := h
  have hq : Sidesteps s.db.queue (releaseJobs s.db.queue E.maxRetries ids) := by
    refine sidesteps_releaseJobs _ fun j hj hi => ?_
    obtain ⟨it, hit, e⟩ := hfl _ hi
    exact hF.embed (mem_append_left _ (mem_map_of_mem hit)) j hj e.symm
  exact ⟨rfl, rfl, hq, hF.sidestep hq fun _ => ChunkSys.held_filter, .inl rfl,
    fun it h' => .inl (mem_filter.mp h').1⟩

theorem reclaimChunks_sided (hF : s.Flight)
    (h : reclaimChunks E s ids = some s') : Sided E s s' := by
  unfold reclaimChunks at h
  simp only [Option.ite_none_right_eq_some, Option.some.injEq, Bool.and_eq_true,
    all_eq_true, any_eq_true, decide_eq_true_eq] at h
  obtain ⟨⟨-, hcl⟩, rfl⟩ := h
  have hq : Sidesteps s.db.queue (releaseJobs s.db.queue E.maxRetries ids) := by
    refine sidesteps_releaseJobs _ fun j hj hi => ?_
    obtain ⟨j', hj', e, hc⟩ := hcl _ hi
    rw [← s.db.queue.eq_of_id hj' hj e]
    exact hF.embeds j' hj' hc
  exact ⟨rfl, rfl, hq, hF.sidestep hq fun _ h => h, .inl rfl, fun _ h => .inl h⟩

/-- Phase 1 reads the claimed jobs. -/
theorem mem_readChunks {rows : Table K (Row δ Unit)} {dest : Destination K C V} {remaining : Nat}
    {closed : Bool} {js : List (Job K)} {r : ChunkRead}
    (h : (j, r) ∈ readChunks E rows dest remaining closed js) : j ∈ js := by
  fun_induction readChunks E rows dest remaining closed js with
  | case1 => cases h
  | _ =>
    rename_i ih
    rcases mem_cons.mp h with h | h
    · cases h
      exact mem_cons_self
    · exact mem_cons_of_mem _ (ih h)

/-- The claim of child jobs, up to phase 1. -/
theorem claimChunks_sided (hF : s.Flight) (h : claimChunks E s ids = some s') : Sided E s s' := by
  unfold claimChunks at h
  simp only [Option.ite_none_right_eq_some, Option.some.injEq, Bool.and_eq_true,
    List.isEmpty_iff, all_eq_true, any_eq_true, decide_eq_true_eq,
    Bool.not_eq_true'] at h
  obtain ⟨⟨⟨⟨hin, hadm⟩, -⟩, hids⟩, rfl⟩ := h
  set q := s.db.queue
  set q₁ := q.claim fun j => ids.contains j.id
  set reads := readChunks E s.db.rows s.dest E.batchBudget false
    (q₁.jobs.filter fun j => ids.contains j.id)
  set q₂ := q₁.moveToDead fun j => (readIds reads ChunkRead.isDead).contains j.id
  set q₃ := q₂.deleteJobs fun j => (readIds reads fun r => decide (r = .obsolete)).contains j.id
  have hembed : ∀ j ∈ q.jobs, j.id ∈ ids → j.slot.op = .embed := by
    intro j hj hi
    obtain ⟨j', hj', ⟨e, -⟩, hop⟩ := hids _ hi
    rw [← q.eq_of_id hj' hj e]
    exact hop
  have hembed₁ : ∀ j ∈ q₁.jobs, j.id ∈ ids → j.slot.op = .embed := by
    intro j hj hi
    obtain ⟨j', hj', rfl⟩ := mem_claim.mp hj
    rw [claimJob_slot]
    rw [claimJob_id] at hi
    exact hembed j' hj' hi
  have hread : ∀ p, ∀ i ∈ readIds reads p, i ∈ ids := by
    intro p i hi
    obtain ⟨⟨j, r⟩, hr, rfl⟩ := mem_map.mp hi
    simpa using (mem_filter.mp (mem_readChunks (mem_filter.mp hr).1)).2
  have k₁ : Sidesteps q q₁ :=
    sidesteps_claim fun j hj hp => hembed j hj (by simpa using hp)
  have k₂ : Sidesteps q₁ q₂ :=
    sidesteps_moveToDead fun j hj hp => hembed₁ j hj (hread _ _ (by simpa using hp))
  have k₃ : Sidesteps q₂ q₃ := sidesteps_deleteJobs
    fun j hj hp => hembed₁ j (mem_deleteJobs.mp hj).1 (hread _ _ (by simpa using hp))
  have k₄ : Sidesteps q₃ (q₃.unclaimJobs (readIds reads fun r => decide (r = .deferred)) true) :=
    sidesteps_unclaimJobs true fun j hj hi =>
      hembed₁ j (mem_deleteJobs.mp (mem_deleteJobs.mp hj).1).1 (hread _ _ hi)
  have hside := ((k₁.trans k₂).trans k₃).trans k₄
  -- the admitted jobs are among those just claimed
  have hadm : ∀ a ∈ reads.filterMap Admitted.ofRead, a.job ∈ q₁.jobs ∧ a.job.id ∈ ids := by
    intro a ha
    obtain ⟨⟨j, r⟩, hr, e⟩ := mem_filterMap.mp ha
    have hj := mem_filter.mp (mem_readChunks hr)
    cases r with
    | admitted cid len =>
      cases e
      exact ⟨hj.1, by simpa using hj.2⟩
    | malformed | mismatched | obsolete | tooLarge | deferred => cases e
  refine ⟨rfl, rfl, hside, ⟨?_, ?_, ?_⟩, .inl rfl, fun it h => .inl h⟩
  · intro i hi
    rcases mem_append.mp hi with hi | hi
    · rw [show s.inflight = [] from hin] at hi
      cases hi
    · obtain ⟨a, ha, rfl⟩ := mem_map.mp hi
      exact Nat.lt_of_lt_of_le (q₁.ids_lt _ (hadm a ha).1) hside.grows.next
  · intro i hi j hj e
    rcases mem_append.mp hi with hi | hi
    · rw [show s.inflight = [] from hin] at hi
      cases hi
    · obtain ⟨a, ha, rfl⟩ := mem_map.mp hi
      obtain ⟨ha, hai⟩ := hadm a ha
      rcases mem_unclaimJobs hj with ⟨hj, -⟩ | ⟨-, hlt, -⟩
      · have hj₁ : j ∈ q₁.jobs := (mem_deleteJobs.mp (mem_deleteJobs.mp hj).1).1
        exact claimed_of_mem_claim hj₁ (e ▸ hai)
      · have hlt' : q₁.nextId ≤ j.id := hlt
        have := q₁.ids_lt _ ha
        omega
  · intro j hj hc
    cases hop : j.slot.op with
    | embed => rfl
    | refresh =>
      rw [hF.embeds j (hside.old j hj hop) hc] at hop
      cases hop

/-- Phase 2, and the commit of the claim. -/
theorem renderChunks_sided (hF : s.Flight) (h : renderChunks E s = some s') : Sided E s s' := by
  unfold renderChunks at h
  simp only [Option.ite_none_left_eq_some, Option.some.injEq] at h
  obtain ⟨-, rfl⟩ := h
  have hq : Sidesteps s.db.queue (s.db.queue.deleteJobs fun j =>
      ((s.admitted.filter fun a => (renderAdmitted E s.db.rows s.dest a).isNone).map
        fun a => a.job.id).contains j.id) := by
    refine sidesteps_deleteJobs fun j hj hp => ?_
    rw [contains_iff_mem] at hp
    obtain ⟨a, ha, e⟩ := mem_map.mp hp
    refine hF.embed (i := a.job.id) ?_ j hj e.symm
    exact mem_append_right _ (mem_map.mpr ⟨a, (mem_filter.mp ha).1, rfl⟩)
  have hitem : ∀ it ∈ s.admitted.filterMap (renderAdmitted E s.db.rows s.dest),
      (∃ a ∈ s.admitted, a.job.id = it.id) ∧
      ∃ c, s.dest.find it.cid = some c ∧ renderChunk E s.db.rows c = some it.text := by
    intro it hit
    obtain ⟨a, ha, e⟩ := mem_filterMap.mp hit
    unfold renderAdmitted at e
    obtain ⟨x, hx, e⟩ := Option.bind_eq_some_iff.mp e
    obtain ⟨c, hc, hr⟩ := Option.bind_eq_some_iff.mp hx
    split at e
    · cases e
      exact ⟨⟨a, ha, rfl⟩, c, hc, hr⟩
    · cases e
  refine ⟨rfl, rfl, hq, hF.sidestep hq ?_, .inl rfl, fun it hit => .inr (hitem it hit).2⟩
  intro i hi
  rcases mem_append.mp hi with hi | hi
  · obtain ⟨it, hit, rfl⟩ := mem_map.mp hi
    obtain ⟨⟨a, ha, e⟩, -⟩ := hitem it hit
    exact mem_append_right _ (mem_map.mpr ⟨a, ha, e⟩)
  · cases hi

end Worker

end Postvec
