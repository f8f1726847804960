import Postvec.Managed.Reliance

/-!
# The managed deployment's column mode: when sync converges

Convergence: with no writer open, a row whose key has no pending, claimed or dead job has the vector
of its current text, and NULL when it has none. `write_back` checks the version of a row it has
read, so a row that changes after the read is embedded again. A key that had no row at claim time is
not checked: its job is finished (`Wrote.unchecked`), although an open `INSERT` may have been
coalesced into that job:

* `missing_vector_reachable`: a job is released after its row was deleted, the key is inserted again
  in an open transaction, the job is claimed, the transaction commits, and the job is finished; the
  row has a text, no vector and no job;
* `managedColumn_converges`: it holds in every run whose claims and `UPDATE`s are `minding`.

The invariant `Inv` says what each committed row and each row an open transaction is about to commit
can rely on (`Stands`).
-/

namespace Postvec.Managed

open Machine List Option

section Invariant

variable {K δ T V : Type*} [DecidableEq K]

/-! ## 1. The invariant -/

/-- What the row `r` an open transaction holds under `k` can rely on once it is committed. -/
def Covered (E : Entry δ T V) (s : Sys K δ T (Option V)) (t : Txn K δ (Option V)) (k : K)
    (r : Row δ (Option V)) : Prop :=
  E.Good r ∨ rowSlot k ∈ t.own ∨
    Stands s.db.queue (Minded s.inflight) t.dropped t.droppedDead k ∨ TouchedRow E.text s.db t k

/-- The invariant of column-mode sync. -/
structure Inv (E : Entry δ T V) (s : Sys K δ T (Option V)) : Prop where
  settled : ∀ k r, s.db.rows.get k = some r →
    E.Good r ∨ Stands s.db.queue (Minded s.inflight) [] [] k
  /-- an item whose version is still current has the current text -/
  reading : ∀ it ∈ s.inflight, ∀ r, s.db.rows.get it.pk = some r → it.version = some r.xmin →
    it.oversized = false → it.text = E.text r.doc
  covered : ∀ x t, s.db.txns.get x = some t → ∀ k, t.mine.get k ≠ none →
    ∀ r, (t.table x s.db.rows).get k = some r → Covered E s t k r
  drops : ∀ x t, s.db.txns.get x = some t → t.Drops s.db.queue
  locks : s.db.Locks
  stamped : s.db.Stamped
  past : ∀ it ∈ s.inflight, ∀ v, it.version = some v → s.db.Past v
  flight : Flight s.db.queue s.inflight

variable {E : Entry δ T V} {s s' : Sys K δ T (Option V)}

theorem Entry.Good.owed (E : Entry δ T V) : Owed E.text E.Good where
  congr := by
    intro r r' hd hc h
    rw [Entry.Good, hd, hc]
    exact h
  fresh := by
    intro r ht hc
    rw [Entry.Good, ht, hc]
    rfl

omit [DecidableEq K] in
theorem Inv.relied (hI : Inv E s) : Relied E.text E.Good (Minded s.inflight) s.db :=
  ⟨hI.settled, hI.covered, hI.drops, hI.locks, hI.stamped⟩

variable {it : Item K T Nat} {items its : List (Item K T Nat)}

omit [DecidableEq K] in
theorem Inv.readFrom (hI : Inv E s) (hit : it ∈ s.inflight) :
    ReadFrom E.text s.db it :=
  fun v hv => ⟨hI.past it hit v hv, fun r hr hx => hI.reading it hit r hr (hx ▸ hv)⟩

omit [DecidableEq K] in
/-- The invariant from its parts: what rows rely on, what items have read, and the flight. -/
theorem Inv.of_relied (hR : Relied E.text E.Good (Minded s.inflight) s.db)
    (hread : ∀ it ∈ s.inflight, ReadFrom E.text s.db it) (hF : Flight s.db.queue s.inflight) :
    Inv E s where
  settled := hR.settled
  reading := fun it hit r hr hv => (hread it hit _ hv).2 r hr rfl
  covered := hR.covered
  drops := hR.drops
  locks := hR.locks
  stamped := hR.stamped
  past := fun it hit v hv => (hread it hit v hv).1
  flight := hF

/-! ## 2. Steps of the leader -/

omit [DecidableEq K] in
/-- Pending jobs are not in flight. -/
theorem Inv.pending (hI : Inv E s) (hin : ∀ it ∈ items, it ∈ s.inflight) (q : Queue K)
    (hg : Queue.Grows s.db.queue q) : ∀ j ∈ q.jobs, j.claimed = false → Minded items j.id :=
  fun _ hj hp => (hI.flight.grows hg hin).minded_of_pending hj hp

/-- The queue changes, and items leave the flight. -/
theorem Inv.requeue (hI : Inv E s) {q : Queue K} (hin : ∀ it ∈ items, it ∈ s.inflight)
    (h : Requeued (Minded s.inflight) (Minded items) s.db { s.db with queue := q }) :
    Inv E ⟨{ s.db with queue := q }, items⟩ := by
  refine Inv.of_relied (hI.relied.requeued h) (fun it hit => ?_) (hI.flight.grows h.grows hin)
  exact hI.readFrom (hin it hit)

/-- What is in flight is lost. -/
theorem Inv.lost (hI : Inv E s) : Inv E { s with inflight := [] } :=
  hI.requeue (fun _ h => by cases h) (requeued_same fun i _ => minded_nil i)

/-- A job is released. -/
theorem Inv.released (hI : Inv E s) {id : Nat} {backoff : Bool}
    (hr : releaseWaits s.db id backoff = false) (hin : ∀ it ∈ items, it ∈ s.inflight) :
    Inv E ⟨{ s.db with queue := release s.db.queue id backoff }, items⟩ :=
  hI.requeue hin (requeued_release (fun _ hi => hi.mono hin) hr (hI.pending hin))

/-- The row is written and the job finished. The row had the version that was read and nobody holds
    it, so it gets the vector of its text. -/
theorem Inv.written (hI : Inv E s)
    (hin : s.inflight = it :: its) (hver : it.version = (s.db.rows.get it.pk).map Row.xmin)
    (hsome : (s.db.rows.get it.pk).map Row.xmin ≠ none) (hb : s.db.shareBlocked it.pk = false)
    (hov : it.oversized = false) :
    Inv E ⟨applyWrite setVector s.db it.pk (finish s.db.queue it.id false)
      (some (it.text.map E.embed)), its⟩ := by
  obtain ⟨r₀, hr₀⟩ := ne_none_iff_exists'.mp fun h => hsome (congrArg _ h)
  have hmem : it ∈ s.inflight := hin ▸ mem_cons_self
  have htail : ∀ it' ∈ its, it' ∈ s.inflight := fun it' h' => hin ▸ mem_cons_of_mem _ h'
  have htext : it.text = E.text r₀.doc :=
    hI.reading it hmem r₀ hr₀ (by rw [hver, hr₀]; rfl) hov
  have hg := (keeps_finish s.db.queue it.id false).grows
  have hgood : E.Good { r₀ with
      cols := setVector (it.text.map E.embed) r₀.cols, xmin := s.db.nextXid } := by
    rw [htext]
    exact rfl
  refine Inv.of_relied (hI.relied.wrote hr₀ hb hg (.inl hgood) ?_) (fun it' hit' v hv => ?_)
    (hI.flight.grows hg htail)
  · -- the finished job stood for this key only
    intro dropped droppedDead _ k hne h
    refine h.finish_done (fun j hj e hjk _ => ?_) fun i hi => hi.mono htail
    exact hne (hjk.symm.trans (hI.flight.claimed j hj it hmem e.symm).2.1)
  · exact (hI.readFrom (htail it' hit') v hv).writeVector _ _ _

/-- One job of a batch is written back. -/
theorem Inv.writeBackOne (hI : Inv E s)
    {q : Queue K} {w : Option (Option V)} (hin : s.inflight = it :: its)
    (h : Wrote E.toModel s.db ((s.db.rows.get it.pk).map Row.xmin) (s.db.shareBlocked it.pk) it q
      w) : Inv E ⟨applyWrite setVector s.db it.pk q w, its⟩ := by
  have hmem : it ∈ s.inflight := hin ▸ mem_cons_self
  have htail : ∀ it' ∈ its, it' ∈ s.inflight := fun it' h' => hin ▸ mem_cons_of_mem _ h'
  have hmono : ∀ i, Minded s.inflight i → Minded its i := fun i hi => hi.mono htail
  rcases h.requeued hmono (hI.pending htail) fun hv hm =>
    hm it hmem rfl hv with ⟨rfl, hq⟩ | ⟨rfl, rfl, hsome, hver, hb, hov⟩
  · exact hI.requeue htail hq
  · exact hI.written hin hver hsome hb hov

variable {ids : List Nat}

/-! ## 3. Claims -/

/-- The condition on steps: a job of a key without a committed row is not claimed while an open
    transaction has a row under the key, with a source or a vector, for which it has enqueued no job
    of its own; and an `UPDATE` of a row to columns that are not distinct keeps its text. -/
def Sys.minding [BEq δ] [DecidableEq T] (E : Entry δ T V) (s : Sys K δ T (Option V)) :
    Act K δ → Bool
  | .claim ids => s.db.queue.jobs.all fun j =>
    !ids.contains j.id || (s.db.rows.get j.slot.pk).isSome ||
      !s.db.txns.any fun x t => ((t.table x s.db.rows).get j.slot.pk).any fun r =>
        ((E.text r.doc).isSome || r.cols.isSome) && !t.own.contains (rowSlot j.slot.pk)
  | .writer w => s.db.alike E.text w
  | _ => true

variable [BEq δ] [DecidableEq T]

/-- What the condition gives for a claimed job of an absent key. -/
theorem Sys.minding_claim (h : s.minding E (.claim ids) = true) {j : Job K}
    (hj : j ∈ s.db.queue.jobs) (hi : j.id ∈ ids) (hrow : s.db.rows.get j.slot.pk = none) {x : Nat}
    {t : Txn K δ (Option V)} (ht : s.db.txns.get x = some t) {r : Row δ (Option V)}
    (hr : (t.table x s.db.rows).get j.slot.pk = some r) :
    rowSlot j.slot.pk ∈ t.own ∨ E.Good r := by
  have hj' := List.all_eq_true.mp h j hj
  simp only [contains_iff_mem.mpr hi, hrow, isSome_none, Bool.not_true,
    Bool.false_or, Bool.not_eq_true'] at hj'
  have ht' := Table.any_eq_false_iff.mp hj' x t ht
  simp only [hr, any_some, Bool.and_eq_false_iff, Bool.or_eq_false_iff,
    isSome_eq_false_iff, isNone_iff_eq_none, Bool.not_eq_false',
    contains_iff_mem] at ht'
  rcases ht' with ⟨htext, hcols⟩ | hown
  · exact .inr (by rw [Entry.Good, htext, hcols]; rfl)
  · exact .inl hown

/-- Jobs are claimed and read. -/
theorem Inv.claim (hI : Inv E s) (hc : s.minding E (.claim ids) = true)
    (h : claim E s ids = some s') : Inv E s' := by
  unfold Managed.claim at h
  split at h
  · obtain ⟨⟨q, items⟩, hq, rfl⟩ := map_eq_some_iff.mp h
    have hC := claimJobs_spec hq
    refine Inv.of_relied (hI.relied.claim hC fun j hj hi hnone x t ht r hr => ?_)
      (fun it hit => hC.readFrom hI.stamped hit) hC.flight
    exact s.minding_claim hc hj hi hnone ht hr
  · cases h

/-! ## 4. Steps of writers -/

/-- Writers change at most one key per statement. -/
def Act.oneKey : Act K δ → Bool
  | .writer (.exec _ st) => Managed.oneKey st
  | _ => true

/-- A step of a writer. -/
theorem Inv.writer (hI : Inv E s) {w : WriterAct K δ} {db' : Db K δ (Option V)}
    (hone : (Act.writer w).oneKey = true) (hc : s.minding E (.writer w) = true)
    (hw : s.db.writer (triggers E.text false E.mode) w = some db') :
    Inv E { s with db := db' } := by
  have hF : Flight db'.queue s.inflight := hI.flight.grows (grows_writer hw) fun _ h => h
  refine Inv.of_relied (hI.relied.writer (Entry.Good.owed E) (rowTriggers_managed E.text E.mode)
    (fun x st e => ?_) (fun x st t e ht => ?_) (hI.pending fun _ h => h) hw)
    (fun it hit v hv => (hI.readFrom hit v hv).writer hI.stamped hw) hF
  · subst e
    exact hone
  · subst e
    exact rendered_of_alike hc ht

/-! ## 5. Convergence -/

/-- Every step under the conditions keeps the invariant. -/
theorem Inv.step (hI : Inv E s) {a : Act K δ} (hone : a.oneKey = true)
    (hc : s.minding E a = true) (h : s.step E setVector a = some s') : Inv E s' := by
  cases a with
  | writer w =>
    obtain ⟨db', hw, rfl⟩ := map_eq_some_iff.mp h
    exact hI.writer hone hc hw
  | expire ids =>
    obtain ⟨db', hdb, rfl⟩ := map_eq_some_iff.mp h
    refine expireStale_invariant (I := fun db => Inv E { s with db := db }) (fun db id hI hr => ?_)
      hI hdb
    exact hI.released hr fun _ h => h
  | claim ids => exact hI.claim hc h
  | writeBack answers =>
    simp only [Sys.step, ite_none_left_eq_some] at h
    exact writeBack_invariant (fun _ hI => hI.lost) (fun _ _ _ _ _ hI hin hw =>
      hI.writeBackOne hin hw) hI h.2
  | release id =>
    obtain ⟨⟨db', items⟩, hone, rfl⟩ := map_eq_some_iff.mp h
    obtain ⟨hr, rfl, hin⟩ := releaseOne_some hone
    exact hI.released hr hin
  | crash =>
    cases h
    exact hI.lost

/-- A state runs start from: nothing is open or in flight, every row has the version of an ended
    transaction, and it has its vector, a job or a dead job. -/
structure Sys.Start (E : Entry δ T V) (s : Sys K δ T (Option V)) : Prop where
  idle : ∀ x, s.db.txns.get x = none
  quiet : s.inflight = []
  versions : ∀ k r, s.db.rows.get k = some r → r.xmin < s.db.nextXid
  filled : ∀ k r, s.db.rows.get k = some r → E.Good r ∨ s.db.queue.Dead k ∨ s.db.queue.Live k

omit [DecidableEq K] [BEq δ] [DecidableEq T] in
theorem Sys.Start.inv (h : s.Start E) : Inv E s := by
  refine Inv.of_relied (relied_of_idle h.idle h.versions fun k r hr => ?_) (fun it hit => ?_) ?_
  · refine (h.filled k r hr).imp_right fun hk => (stands_nil_iff fun i => ?_).mpr hk
    rw [h.quiet]
    exact minded_nil i
  · simp [h.quiet] at hit
  · rw [h.quiet]
    exact flight_nil _

/-- **Convergence.** In every run of writers that change at most one key per statement, expiries,
    claims, write-backs, releases and crashes, whose claims and `UPDATE`s meet the condition, in
    every state reached: a row without a live or dead job has the vector of the text it renders, or
    none if it renders none. -/
theorem managedColumn_converges (E : Entry δ T V) (s₀ s : Sys K δ T (Option V)) (h₀ : s₀.Start E)
    (h : Reach (Sys.step E setVector) (fun s a => a.oneKey = true ∧ s.minding E a = true) s₀ s)
    (k : K) (r : Row δ (Option V)) (hr : s.db.rows.get k = some r) (hlive : ¬ s.db.queue.Live k)
    (hdead : ¬ s.db.queue.Dead k) : r.cols = (E.text r.doc).map E.embed := by
  have hI : Inv E s := h.invariant h₀.inv fun s a s' hI hc hs => hI.step hc.1 hc.2 hs
  rcases hI.settled k r hr with hg | ⟨d, hd, hk, -⟩ | ⟨j, hj, hk, -⟩
  · exact hg
  · exact absurd ⟨d, hd, hk⟩ hdead
  · exact absurd ⟨j, hj, hk⟩ hlive

end Invariant

/-! ## 6. Two runs -/

section Runs

/-- An entry whose document is its text, and whose model returns the text. -/
def plainEntry (mode : TriggerMode) : Entry (Option Nat) Nat Nat where
  text := id
  embed := id
  width := fun _ => 1
  dim := 1
  bytes := fun _ => 1
  batchSize := 10
  mode := mode

/-- An empty table with an empty queue. -/
def Sys.initial : Sys Nat (Option Nat) Nat (Option Nat) where
  db := ⟨.empty, .empty, .empty, 0⟩
  inflight := []

theorem Sys.initial_start (mode : TriggerMode) : Sys.initial.Start (plainEntry mode) where
  idle := fun _ => rfl
  quiet := rfl
  versions := fun k r hr => by cases hr
  filled := fun k r hr => by cases hr

/-- Row 1 is inserted; its job is claimed, the row is deleted, and the write-back releases the job.
    The key is inserted again in an open transaction, which adds no job; the released job is claimed
    and finds no row, the transaction commits, and the job is finished. -/
def reinsertedRun : List (Act Nat (Option Nat)) :=
  [.writer .begin, .writer (.exec 0 (.insert [(1, some 10)])), .writer (.commit 0), .claim [0],
    .writer .begin, .writer (.exec 1 (.delete [1])), .writer (.commit 1),
    .writeBack [⟨.vector, false⟩],
    .writer .begin, .writer (.exec 2 (.insert [(1, some 20)])), .claim [1], .writer (.commit 2),
    .writeBack [⟨.vector, false⟩]]

/-- **A missing vector.** In either trigger mode a reachable state without open transactions has a
    row with a text and no vector, and no job for it, live or dead. -/
theorem missing_vector_reachable :
    (∃ s, Reach (Sys.step (plainEntry .statement) setVector) (fun _ a => a.oneKey = true)
        Sys.initial s ∧ s.db.rows.get 1 = some ⟨some 20, none, 2⟩ ∧
      (∀ x, s.db.txns.get x = none) ∧ ¬ s.db.queue.Live 1 ∧ ¬ s.db.queue.Dead 1) ∧
    ∃ s, Reach (Sys.step (plainEntry .row) setVector) (fun _ a => a.oneKey = true)
        Sys.initial s ∧ s.db.rows.get 1 = some ⟨some 20, none, 2⟩ ∧
      (∀ x, s.db.txns.get x = none) ∧ ¬ s.db.queue.Live 1 ∧ ¬ s.db.queue.Dead 1 := by
  let p : Sys Nat (Option Nat) Nat (Option Nat) → Bool := fun s =>
    decide (s.db.rows.get 1 = some ⟨some 20, none, 2⟩ ∧ (s.db.txns.any fun _ _ => true) = false ∧
      ¬ s.db.queue.Live 1 ∧ ¬ s.db.queue.Dead 1)
  have hs : (runWhile (Sys.step (plainEntry .statement) setVector) (fun _ a => a.oneKey = true)
      Sys.initial reinsertedRun).any p = true := by decide
  have hr : (runWhile (Sys.step (plainEntry .row) setVector) (fun _ a => a.oneKey = true)
      Sys.initial reinsertedRun).any p = true := by decide
  refine ⟨?_, ?_⟩
  · obtain ⟨s, hreach, hp⟩ := Reach.exists_of_runWhile hs
    obtain ⟨hrow, htx, hq⟩ := of_decide_eq_true hp
    exact ⟨s, hreach, hrow, Table.get_eq_none_of_any htx, hq⟩
  · obtain ⟨s, hreach, hp⟩ := Reach.exists_of_runWhile hr
    obtain ⟨hrow, htx, hq⟩ := of_decide_eq_true hp
    exact ⟨s, hreach, hrow, Table.get_eq_none_of_any htx, hq⟩

/-- The same writes with the second claim after the commit. -/
def patientRun : List (Act Nat (Option Nat)) :=
  [.writer .begin, .writer (.exec 0 (.insert [(1, some 10)])), .writer (.commit 0), .claim [0],
    .writer .begin, .writer (.exec 1 (.delete [1])), .writer (.commit 1),
    .writeBack [⟨.vector, false⟩],
    .writer .begin, .writer (.exec 2 (.insert [(1, some 20)])), .writer (.commit 2), .claim [1],
    .writeBack [⟨.vector, false⟩]]

/-- A run that meets the conditions: the row ends with the vector of its text. -/
theorem patientRun_converges :
    ∃ s, Reach (Sys.step (plainEntry .row) setVector)
        (fun s a => a.oneKey = true ∧ s.minding (plainEntry .row) a = true) Sys.initial s ∧
      ∃ r, s.db.rows.get 1 = some r ∧ r.doc = some 20 ∧
        r.cols = ((plainEntry .row).text r.doc).map (plainEntry .row).embed := by
  let p : Sys Nat (Option Nat) Nat (Option Nat) → Bool := fun s =>
    decide ((s.db.rows.get 1).map Row.doc = some (some 20) ∧ s.db.queue.jobs = [] ∧
      s.db.queue.dead = [])
  have h : (runWhile (Sys.step (plainEntry .row) setVector)
      (fun s a => a.oneKey = true ∧ s.minding (plainEntry .row) a = true) Sys.initial
      patientRun).any p = true := by decide
  obtain ⟨s, hs, hp⟩ := Reach.exists_of_runWhile h
  obtain ⟨hdoc, hjobs, hdead⟩ := of_decide_eq_true hp
  obtain ⟨r, hr, hd⟩ := map_eq_some_iff.mp hdoc
  refine ⟨s, hs, r, hr, hd, managedColumn_converges (plainEntry .row) _ s
    (Sys.initial_start .row) hs 1 r hr (fun hl => ?_) fun hl => ?_⟩
  · obtain ⟨j, hj, -⟩ := hl
    rw [hjobs] at hj
    cases hj
  · obtain ⟨j, hj, -⟩ := hl
    rw [hdead] at hj
    cases hj

end Runs

end Postvec.Managed
