import Postvec.Extension.Column

/-!
# The extension's column mode: what the triggers and the worker do

One lemma for each kind of step of `Extension/Column.lean`, whatever the columns and the routing:

* `rowTriggers_column`: every row a statement leaves with distinct content is enqueued;
* `claimAndRead_spec` (`Claimed`): an item in flight is a claimed job with the text its row has;
* `Ended`: the other worker steps end items in flight. A row is written for one of them, or stays
  and keeps a job it had.
-/

namespace Postvec

open Machine List

/-! ## 1. The triggers enqueue every changed row -/

section Triggers

variable {K δ T : Type*} [DecidableEq K] [BEq δ]

omit [DecidableEq K] [BEq δ] in
theorem trgIns_enqueues (text : δ → Option T) (rows : List (K × δ)) :
    ∀ c ∈ trgIns text rows, ∃ s, c = .enqueue s := by
  intro c hc
  obtain ⟨r, -, rfl⟩ := mem_map.mp hc
  exact ⟨_, rfl⟩

theorem onUpdate_enqueues (text : δ → Option T) (mode : TriggerMode) (imgs : List (Image K δ)) :
    ∀ c ∈ (columnTriggers text mode).onUpdate imgs, ∃ s, c = .enqueue s := by
  intro c hc
  rcases mem_append.mp hc with hc | hc
  · obtain ⟨i, -, rfl⟩ := mem_map.mp hc
    exact ⟨_, rfl⟩
  · cases mode with
    | row =>
      obtain ⟨i, -, rfl⟩ := mem_map.mp hc
      exact ⟨_, rfl⟩
    | statement =>
      obtain ⟨n, -, hc⟩ := mem_flatMap.mp hc
      obtain ⟨o, -, rfl⟩ := mem_map.mp hc
      exact ⟨_, rfl⟩

/-- A row updated to another key or to distinct columns is among the enqueued ones. -/
theorem onUpdate_mem (text : δ → Option T) (mode : TriggerMode) {imgs : List (Image K δ)}
    {i : Image K δ} (hi : i ∈ imgs) (hne : ¬ i.Same) :
    .enqueue (rowSlot i.newKey) ∈ (columnTriggers text mode).onUpdate imgs := by
  by_cases hk : i.newKey = i.oldKey
  · have hd : (i.newDoc == i.oldDoc) = false := Bool.eq_false_iff.mpr fun e => hne ⟨hk.symm, e⟩
    refine mem_append_right _ ?_
    cases mode with
    | row => exact mem_map.mpr ⟨i, by simp [hi, bne, hd], rfl⟩
    | statement =>
      -- the row kept its key, so the join finds its own old image
      refine mem_flatMap.mpr ⟨i, hi, mem_map.mpr ⟨i, ?_, rfl⟩⟩
      simp [hi, hk, bne, hd]
  · exact mem_append_left _ (mem_map.mpr ⟨i, by simp [hi, hk], rfl⟩)

omit [DecidableEq K] in
theorem leaves_of_enqueues {cs : List (Cmd K)} (h : ∀ c ∈ cs, ∃ s, c = .enqueue s) (k : K) :
    ∀ c ∈ cs, c.leaves k := by
  intro c hc
  obtain ⟨s, rfl⟩ := h c hc
  trivial

theorem rowTriggers_column (text : δ → Option T) (mode : TriggerMode) :
    RowTriggers text (fun _ : List (Image K δ) => True) (columnTriggers text mode) where
  insert_lasts := by
    intro rows k d hr hd
    refine lasting_of_mem (mem_map.mpr ⟨(k, d), ?_, rfl⟩) (trgIns_enqueues text rows)
    simp [hr, Option.isSome_iff_ne_none, hd]
  insert_leaves := fun rows k _ => leaves_of_enqueues (trgIns_enqueues text rows) k
  update_lasts := by
    intro imgs _ i hi
    by_cases hs : i.Same
    · exact .inl hs
    · exact .inr (lasting_of_mem (onUpdate_mem text mode hi hs) (onUpdate_enqueues text mode imgs))
  update_leaves := fun imgs _ k _ => leaves_of_enqueues (onUpdate_enqueues text mode imgs) k
  delete_leaves := fun _ _ _ c hc => by cases hc

/-- Only a `TRUNCATE` deletes jobs. -/
theorem fire_enqueues {P : Type*} (text : δ → Option T) (mode : TriggerMode)
    (view : Table K (Row δ P)) {st : Stmt K δ} (hst : st ≠ .truncate) :
    ∀ c ∈ (columnTriggers text mode).fire view st, ∃ s, c = .enqueue s := by
  cases st with
  | insert rows => exact trgIns_enqueues text rows
  | update chs => exact onUpdate_enqueues text mode _
  | delete ks => exact fun c hc => by cases hc
  | truncate => exact absurd rfl hst

end Triggers

/-! ## 2. Jobs in flight -/

section Worker

variable {K δ T V P : Type*}

/-- The job is not one of the group in flight. -/
def ColumnSys.Outside (s : ColumnSys K δ T P) (id : Nat) : Prop := ∀ it ∈ s.inflight, it.id ≠ id

/-- A job that is not in flight, or a dead one, stands for the key. -/
def ColumnSys.Waiting (s : ColumnSys K δ T P) (k : K) : Prop :=
  s.db.queue.Dead k ∨ ∃ j ∈ s.db.queue.jobs, j.slot.pk = k ∧ s.Outside j.id

/-- The jobs in flight are claimed, and keep their key. -/
structure ColumnSys.Flight (s : ColumnSys K δ T P) : Prop where
  claimed : ∀ j ∈ s.db.queue.jobs, ∀ it ∈ s.inflight, it.id = j.id →
    j.claimed = true ∧ j.slot.pk = it.pk
  issued : ∀ it ∈ s.inflight, it.id < s.db.queue.nextId

variable {E : ColumnEntry δ T V} {s s' : ColumnSys K δ T P} {k : K} {j : Job K}

theorem ColumnSys.Waiting.live (h : s.Waiting k) :
    s.db.queue.Dead k ∨ s.db.queue.Live k := by
  rcases h with h | ⟨j, hj, hjk, -⟩
  · exact .inl h
  · exact .inr ⟨j, hj, hjk⟩

/-- A pending job is not in flight. -/
theorem ColumnSys.Flight.outside_of_pending (h : s.Flight) (hj : j ∈ s.db.queue.jobs)
    (hp : j.claimed = false) : s.Outside j.id := by
  intro it hit e
  have hc := (h.claimed j hj it hit e).1
  rw [hp] at hc
  cases hc

/-- Jobs of the items left in flight are claimed as before. -/
theorem ColumnSys.Flight.grows (h : s.Flight) (hk : Queue.Grows s.db.queue s'.db.queue)
    (hin : ∀ it ∈ s'.inflight, it ∈ s.inflight) : s'.Flight := by
  refine ⟨fun j hj it hit e => ?_, fun it hit =>
    Nat.lt_of_lt_of_le (h.issued it (hin it hit)) hk.next⟩
  exact hk.claimed (R := fun σ => σ.pk = it.pk) (h.issued it (hin it hit))
    (fun j hj e => h.claimed j hj it (hin it hit) e.symm) hj e.symm

/-- A change to jobs in flight leaves the others standing. -/
theorem waiting_of_keeps {ids : Nat → Prop} (hk : Queue.Keeps ids s.db.queue s'.db.queue)
    (hids : ∀ i, ids i → ¬ s.Outside i) (hin : ∀ it ∈ s'.inflight, it ∈ s.inflight)
    (h : s.Waiting k) : s'.Waiting k := by
  rcases h with h | ⟨j, hj, hjk, ho⟩
  · exact .inl (hk.isDead h)
  · exact .inr ⟨j, hk.jobs j hj fun hi => hids _ hi ho, hjk, fun it hit => ho it (hin it hit)⟩

variable [DecidableEq K]

/-! ## 3. Reading and claiming -/

/-- A read shows the row: its text, or that it has none or is gone. -/
def SourceRead.Shows (o : Option T) : SourceRead T → Prop
  | .text t => o = some t
  | .null => o = none
  | .tooLarge => True
  | .deferred => True

omit [DecidableEq K] in
theorem mem_readSources {rows : Table K (Row δ P)} {c : Job K} {sr : SourceRead T}
    {cs : List (Job K)} {used : Nat} {closed : Bool}
    (h : (c, sr) ∈ readSources E rows used closed cs) :
    c ∈ cs ∧ sr.Shows ((rows.get c.slot.pk).bind fun r => E.text r.doc) := by
  fun_induction readSources E rows used closed cs with
  | case1 => cases h
  | case2 used closed c' cs hn ih =>
    rcases mem_cons.mp h with h | h
    · cases h
      exact ⟨mem_cons_self, hn⟩
    · exact ⟨mem_cons_of_mem _ (ih h).1, (ih h).2⟩
  | case3 used closed c' cs t ht _ ih =>
    rcases mem_cons.mp h with h | h
    · cases h
      exact ⟨mem_cons_self, trivial⟩
    · exact ⟨mem_cons_of_mem _ (ih h).1, (ih h).2⟩
  | case4 used closed c' cs t ht _ _ ih =>
    rcases mem_cons.mp h with h | h
    · cases h
      exact ⟨mem_cons_self, ht⟩
    · exact ⟨mem_cons_of_mem _ (ih h).1, (ih h).2⟩
  | case5 used closed c' cs t ht _ _ ih =>
    rcases mem_cons.mp h with h | h
    · cases h
      exact ⟨mem_cons_self, trivial⟩
    · exact ⟨mem_cons_of_mem _ (ih h).1, (ih h).2⟩

/-- What a claim leaves: the claimed jobs are dead, pending again, or claimed and still there; an
    item in flight is one of them, with the text its row has. -/
structure Claimed (E : ColumnEntry δ T V) (s s' : ColumnSys K δ T P) (ids : List Nat) : Prop where
  idle : s.inflight = []
  open_ : s.db.truncated = false
  rows : s'.db.rows = s.db.rows
  txns : s'.db.txns = s.db.txns
  keeps : Queue.Keeps (· ∈ ids) s.db.queue s'.db.queue
  moved : ∀ j ∈ s.db.queue.jobs, j.id ∈ ids → s'.db.queue.Dead j.slot.pk ∨
    ∃ j' ∈ s'.db.queue.jobs, j'.slot = j.slot
  items : ∀ it ∈ s'.inflight, it.id ∈ ids ∧
    it.text = ((s.db.rows.get it.pk).bind fun r => E.text r.doc) ∧
    ∃ j ∈ s.db.queue.jobs, j.id = it.id ∧ j.slot.pk = it.pk
  claimed : ∀ j ∈ s'.db.queue.jobs, ∀ it ∈ s'.inflight, it.id = j.id →
    j.claimed = true ∧ j.slot.pk = it.pk

variable {ids : List Nat}

theorem claimAndRead_spec (h : claimAndRead E s ids = some s') :
    Claimed E s s' ids := by
  unfold claimAndRead at h
  simp only [Option.ite_none_right_eq_some, Option.some.injEq, Bool.and_eq_true,
    List.isEmpty_iff, Bool.not_eq_true'] at h
  obtain ⟨⟨⟨⟨hidle, hopen⟩, hids⟩, hslots⟩, rfl⟩ := h
  set q := s.db.queue
  set q₁ := q.claim fun j => ids.contains j.id
  set reads := readSources E s.db.rows 0 false (q₁.jobs.filter fun j => ids.contains j.id)
  set large := (reads.filter fun r => r.2.isTooLarge).map fun r => r.1.id
  set deferred := ((reads.filter fun r => r.2.isDeferred).map fun r => r.1).map Job.id
  have hread : ∀ c sr, (c, sr) ∈ reads → (c ∈ q₁.jobs ∧ c.id ∈ ids) ∧
      sr.Shows ((s.db.rows.get c.slot.pk).bind fun r => E.text r.doc) := by
    intro c sr hc
    obtain ⟨hm, hs⟩ := mem_readSources hc
    exact ⟨by simpa using hm, hs⟩
  have hL : ∀ i ∈ large, i ∈ ids := by
    intro i hi
    obtain ⟨⟨c, sr⟩, hc, rfl⟩ := mem_map.mp hi
    exact (hread c sr (mem_filter.mp hc).1).1.2
  have hD : ∀ i ∈ deferred, i ∈ ids := by
    intro i hi
    obtain ⟨c, hc, rfl⟩ := mem_map.mp hi
    obtain ⟨⟨c', sr⟩, hc', rfl⟩ := mem_map.mp hc
    exact (hread c' sr (mem_filter.mp hc').1).1.2
  have hitem : ∀ it ∈ reads.filterMap JobItem.ofRead, ∃ c ∈ q₁.jobs, c.id = it.id ∧ c.id ∈ ids ∧
      c.slot.pk = it.pk ∧ it.text = ((s.db.rows.get it.pk).bind fun r => E.text r.doc) := by
    intro it hit
    obtain ⟨⟨c, sr⟩, hc, e⟩ := mem_filterMap.mp hit
    obtain ⟨⟨hm, hi⟩, hs⟩ := hread c sr hc
    cases sr with
    | text | null =>
      cases e
      exact ⟨c, hm, rfl, hi, rfl, hs.symm⟩
    | tooLarge | deferred => cases e
  exact
    { idle := hidle
      open_ := hopen
      rows := rfl
      txns := rfl
      keeps := Queue.keeps_sortClaimed hL hD
      moved := by
        intro j hj hi
        have hc : Queue.claimJob (fun j => ids.contains j.id) j ∈ q₁.jobs :=
          Queue.mem_claim.mpr ⟨j, hj, rfl⟩
        have hslot := Queue.claimJob_slot (fun j => ids.contains j.id) j
        rcases Queue.moved_unclaimJobs true (fun j => large.contains j.id) deferred hc with
          hd | ⟨-, -, j', hj', -, e, -⟩ | ⟨-, hk⟩
        · exact .inl ⟨_, hd, by rw [hslot]⟩
        · exact .inr ⟨j', hj', e.trans hslot⟩
        · exact .inr ⟨_, hk, hslot⟩
      items := by
        intro it hit
        obtain ⟨c, hc, hid, hi, hk, ht⟩ := hitem it hit
        obtain ⟨j, hj, rfl⟩ := Queue.mem_claim.mp hc
        rw [Queue.claimJob_id] at hid hi
        rw [Queue.claimJob_slot] at hk
        exact ⟨hid ▸ hi, ht, j, hj, hid, hk⟩
      claimed := by
        intro j hj it hit e
        obtain ⟨c, hc, hid, hi, hk, -⟩ := hitem it hit
        obtain ⟨rfl, hcl⟩ := Queue.claimed_sortClaimed hc hi (hid.trans e) hj
        exact ⟨hcl, hk⟩ }

omit [DecidableEq K] in
/-- A claim makes the group in flight. -/
theorem Claimed.flight (h : Claimed E s s' ids) : s'.Flight where
  claimed := h.claimed
  issued := by
    intro it hit
    obtain ⟨-, -, j, hj, e, -⟩ := h.items it hit
    exact e ▸ Nat.lt_of_lt_of_le (s.db.queue.ids_lt j hj) h.keeps.next

omit [DecidableEq K] in
/-- A job that stood for a key still does, unless it is in flight now. -/
theorem Claimed.stands (h : Claimed E s s' ids)
    (hj : j ∈ s.db.queue.jobs) : s'.db.queue.Dead j.slot.pk ∨
      (∃ j' ∈ s'.db.queue.jobs, j'.slot.pk = j.slot.pk ∧ s'.Outside j'.id) ∨
      (∃ it ∈ s'.inflight, it.pk = j.slot.pk ∧ s'.db.queue.Live j.slot.pk) := by
  by_cases hi : j.id ∈ ids
  · rcases h.moved j hj hi with hd | ⟨j', hj', e⟩
    · exact .inl hd
    · by_cases ho : s'.Outside j'.id
      · exact .inr (.inl ⟨j', hj', by rw [e], ho⟩)
      · simp only [ColumnSys.Outside, not_forall, not_not] at ho
        obtain ⟨it, hit, hid⟩ := ho
        exact .inr (.inr ⟨it, hit, by rw [← e, (h.claimed j' hj' it hit hid).2],
          ⟨j', hj', by rw [e]⟩⟩)
  · exact .inr (.inl ⟨j, h.keeps.jobs j hj hi, rfl,
      fun it hit e => hi (e ▸ (h.items it hit).1)⟩)

omit [DecidableEq K] in
/-- A key keeps a job through a claim. -/
theorem Claimed.live (h : Claimed E s s' ids)
    (hk : s.db.queue.Dead k ∨ s.db.queue.Live k) : s'.db.queue.Dead k ∨ s'.db.queue.Live k := by
  rcases hk with hk | ⟨j, hj, rfl⟩
  · exact .inl (h.keeps.isDead hk)
  · rcases h.stands hj with hd | ⟨j', hj', e, -⟩ | ⟨-, -, -, hl⟩
    · exact .inl hd
    · exact .inr ⟨j', hj', e⟩
    · exact .inr hl

/-! ## 4. The end of jobs in flight -/

/-- What the other worker steps leave: fewer items in flight, a job wherever one stood that was not
    in flight, and each row either as it was, with its job if it had one, or written for an item
    that was in flight. -/
structure Ended (E : ColumnEntry δ T V) (put : Option V → P → P) (s s' : ColumnSys K δ T P) :
    Prop where
  open_ : s.db.truncated = false
  txns : s'.db.txns = s.db.txns
  inflight : ∀ it ∈ s'.inflight, it ∈ s.inflight
  flight : s'.Flight
  waiting : ∀ k, s.Waiting k → s'.Waiting k
  rows : ∀ k r', s'.db.rows.get k = some r' →
    (s.db.rows.get k = some r' ∧ (s.db.queue.Dead k ∨ s.db.queue.Live k →
      s'.db.queue.Dead k ∨ s'.db.queue.Live k)) ∨
    (s.db.rowLocked k = false ∧ ∃ it ∈ s.inflight, it.pk = k ∧ ∃ r x, s.db.rows.get k = some r ∧
      r' = { r with cols := put (it.text.map E.embed) r.cols, xmin := x })

variable {put : Option V → P → P} {db : Db K δ P} {o : ItemOutcome}

theorem applyItem_cases {db' : Db K δ P} {it : JobItem K T}
    (h : applyItem E put db it o = some db') :
    (db.rowLocked it.pk = false ∧
      db' = { writeVector db it.pk (put (it.text.map E.embed)) with
        queue := db.queue.deleteJobs fun j => j.id == it.id }) ∨
    db' = { db with queue := db.queue.moveToDead fun j => j.id == it.id } ∨
    db' = { db with queue := db.queue.unclaimJobs [it.id] false } := by
  unfold applyItem at h
  cases ht : it.text with
  | none =>
    simp only [ht, Option.ite_none_left_eq_some, Bool.not_eq_true, Option.some.injEq] at h
    exact .inl ⟨h.1, h.2.symm⟩
  | some t =>
    cases o with
    | ok =>
      simp only [ht] at h
      split at h
      · exact .inr (.inl (Option.some.inj h).symm)
      · split at h
        · cases h
        · rename_i hl
          exact .inl ⟨by simpa using hl, (Option.some.inj h).symm⟩
    | dead =>
      simp only [ht] at h
      exact .inr (.inl (Option.some.inj h).symm)
    | retry =>
      simp only [ht] at h
      split at h
      · exact .inr (.inl (Option.some.inj h).symm)
      · split at h
        · cases h
        · exact .inr (.inr (Option.some.inj h).symm)

/-- The end of one job of the group. -/
theorem applyOne_ended (hF : s.Flight) {id : Nat}
    (h : applyOne E put s id o = some s') : Ended E put s s' := by
  unfold applyOne at h
  split at h
  · cases h
  rename_i it hfind
  have hit : it ∈ s.inflight := mem_of_find?_eq_some hfind
  split at h
  · cases h
  rename_i htr
  obtain ⟨db, hdb, rfl⟩ := Option.map_eq_some_iff.mp h
  have hin : ∀ it' ∈ s.inflight.filter fun it => it.id != id, it' ∈ s.inflight :=
    fun it' h' => (mem_filter.mp h').1
  have hflight : ∀ i, i = it.id → ¬ s.Outside i := fun i e ho => ho it hit e.symm
  rcases applyItem_cases hdb with ⟨hl, rfl⟩ | rfl | rfl
  · have hk : Queue.Keeps (· = it.id) s.db.queue
        (s.db.queue.deleteJobs fun j => j.id == it.id) :=
      Queue.keeps_deleteJobs _ fun j _ hj => by simpa using hj
    refine ⟨by simpa using htr, rfl, hin, hF.grows hk.grows hin,
      fun k => waiting_of_keeps hk hflight hin, ?_⟩
    intro k r' hr'
    simp only [writeVector, Table.get_adjust] at hr'
    by_cases e : k = it.pk
    · rw [if_pos e] at hr'
      obtain ⟨r, hr, rfl⟩ := Option.map_eq_some_iff.mp hr'
      exact .inr ⟨e ▸ hl, it, hit, e.symm, r, _, hr, rfl⟩
    · rw [if_neg e] at hr'
      refine .inl ⟨hr', ?_⟩
      rintro (hd | ⟨j, hj, hjk⟩)
      · exact .inl (hk.isDead hd)
      · -- the finished job was another key's
        refine .inr ⟨j, hk.jobs j hj fun ej => ?_, hjk⟩
        exact e (hjk.symm.trans (hF.claimed j hj it hit ej.symm).2)
  · have hk : Queue.Keeps (· = it.id) s.db.queue
        (s.db.queue.moveToDead fun j => j.id == it.id) :=
      Queue.keeps_moveToDead _ fun j _ hj => by simpa using hj
    refine ⟨by simpa using htr, rfl, hin, hF.grows hk.grows hin,
      fun k => waiting_of_keeps hk hflight hin, fun k r hr => .inl ⟨hr, ?_⟩⟩
    rintro (hd | ⟨j, hj, hjk⟩)
    · exact .inl (hk.isDead hd)
    · by_cases e : j.id = it.id
      · exact .inl ⟨j, Queue.mem_dead_moveToDead.mpr (.inr ⟨hj, by simpa using e⟩), hjk⟩
      · exact .inr ⟨j, hk.jobs j hj e, hjk⟩
  · have hk : Queue.Keeps (· = it.id) s.db.queue (s.db.queue.unclaimJobs [it.id] false) :=
      Queue.keeps_unclaimJobs _ _ fun i hi => by simpa using hi
    refine ⟨by simpa using htr, rfl, hin, hF.grows hk.grows hin,
      fun k => waiting_of_keeps hk hflight hin, fun k r hr => .inl ⟨hr, ?_⟩⟩
    rintro (hd | ⟨j, hj, hjk⟩)
    · exact .inl (hk.isDead hd)
    · by_cases e : j.id = it.id
      · obtain ⟨j', hj', -, e'⟩ := Queue.pending_unclaimJobs (r := false) hj
          (show j.id ∈ [it.id] by simpa using e)
        exact .inr ⟨j', hj', by rw [e', hjk]⟩
      · exact .inr ⟨j, hk.jobs j hj e, hjk⟩

/-- A rejected write-back. -/
theorem releaseFailed_ended (hF : s.Flight)
    (h : releaseFailed E s ids = some s') : Ended E put s s' := by
  unfold releaseFailed at h
  simp only [Option.ite_none_right_eq_some, Option.some.injEq, Bool.and_eq_true,
    all_eq_true, any_eq_true, beq_iff_eq, Db.releasable, Bool.not_eq_true'] at h
  obtain ⟨⟨hfl, htr, -⟩, rfl⟩ := h
  have hk := keeps_releaseJobs s.db.queue E.maxRetries ids
  have hin : ∀ it' ∈ s.inflight.filter fun it => !ids.contains it.id, it' ∈ s.inflight :=
    fun it' h' => (mem_filter.mp h').1
  have hids : ∀ i, i ∈ ids → ¬ s.Outside i := by
    intro i hi ho
    obtain ⟨it, hit, e⟩ := hfl i hi
    exact ho it hit e
  exact ⟨htr, rfl, hin, hF.grows hk.grows hin, fun k => waiting_of_keeps hk hids hin,
    fun k r hr => .inl ⟨hr, releaseJobs_live _ ids⟩⟩

/-- Stale claims return. -/
theorem reclaimStale_ended (hF : s.Flight)
    (h : reclaimStale E s ids = some s') : Ended E put s s' := by
  unfold reclaimStale at h
  simp only [Option.ite_none_right_eq_some, Option.some.injEq, Bool.and_eq_true,
    List.isEmpty_iff, Db.releasable, Bool.not_eq_true'] at h
  obtain ⟨⟨⟨hidle, htr, -⟩, -⟩, rfl⟩ := h
  have hk := keeps_releaseJobs s.db.queue E.maxRetries ids
  refine ⟨htr, rfl, fun it hit => hit, hF.grows hk.grows fun it hit => hit, ?_,
    fun k r hr => .inl ⟨hr, releaseJobs_live _ ids⟩⟩
  intro k hw
  have hout : ∀ i, ColumnSys.Outside { s with db := { s.db with
      queue := releaseJobs s.db.queue E.maxRetries ids } } i := by
    intro i it hit
    rw [show s.inflight = [] from hidle] at hit
    cases hit
  rcases releaseJobs_live E.maxRetries ids hw.live with h | ⟨j, hj, e⟩
  · exact .inl h
  · exact .inr ⟨j, hj, e, hout _⟩

end Worker

end Postvec
