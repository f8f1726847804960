import Postvec.Extension.ChunkSpec
import Postvec.Lib.Run

/-!
# The extension's chunk mode: when sync converges

Two properties of every reachable state: a document without a live or dead job has exactly the
chunks of its current source, with no vector but the one of its current rendering; and no chunk is
of an older version of its document at all. The second always holds. The first fails when one
`UPDATE` moves a row onto a key that a later row of the statement leaves, which a deferrable primary
key allows: the later row's key trigger deletes the refresh the earlier one has enqueued.

* `lost_document_reachable`: such a statement leaves a row without chunks and without a job;
* `chunkSync_converges`: in every run whose `UPDATE`s are `orderly`, both properties hold.

What carries it: the triggers delete a changed document's chunks in the writer's transaction, a
refresh cannot read a row an open transaction has written, and chunk ids are not used again
(`ChunkInv`).
-/

namespace Postvec

open Machine List Option

/-! ## 1. The invariant -/

section Invariant

variable {K δ T C X V : Type*} [DecidableEq K]

/-- The invariant of chunk-mode sync. -/
structure ChunkInv (E : ChunkEntry δ T C X V) (s : ChunkSys K δ C X V) : Prop where
  fresh : E.Fresh s.db.rows s.dest
  /-- a document has the pieces of its source, or a refresh or a dead job stands for it -/
  settled : ∀ k d t, docAt s.db.rows k = some d → E.source d = some t →
    E.split t = some (s.dest.pieces k) ∨ s.db.queue.Pending (refreshSlot k) ∨ s.db.queue.Dead k
  /-- a pending refresh has a row, which it will lock -/
  present : ∀ k, s.db.queue.Pending (refreshSlot k) → s.db.rows.get k ≠ none
  /-- an item in flight carries the current rendering of its chunk -/
  reading : ∀ it ∈ s.inflight, it.cid < s.dest.nextCid ∧
    E.Renders s.db.rows s.dest it.cid it.pk it.text
  flight : s.Flight
  locks : s.db.Locks
  docs : ∀ x t, s.db.txns.get x = some t → t.Docs E.shown s.db x
  seen : ∀ x t, s.db.txns.get x = some t → t.Seen s.db x

variable {E : ChunkEntry δ T C X V} {s s' : ChunkSys K δ C X V}

omit [DecidableEq K] in
theorem pending_of_sidesteps {q q' : Queue K} (hq : Queue.Sidesteps q q') {k : K} :
    q'.Pending (refreshSlot k) ↔ q.Pending (refreshSlot k) := by
  refine ⟨?_, ?_⟩
  · intro h
    obtain ⟨j, hj, hc, e⟩ := h
    exact ⟨j, hq.old j hj (by rw [e]; rfl), hc, e⟩
  · intro h
    obtain ⟨j, hj, hc, e⟩ := h
    exact ⟨j, hq.kept j hj (by rw [e]; rfl), hc, e⟩

omit [DecidableEq K] in
theorem renders_of_find {rows : Table K (Row δ Unit)} {dest : Destination K C V}
    {cid : Nat} {k : K} {c : Chunk K C V} {x : X} (hc : dest.find cid = some c)
    (hx : renderChunk E rows c = some x) :
    cid < dest.nextCid ∧ E.Renders rows dest cid k x := by
  obtain ⟨hm, rfl⟩ := Destination.mem_find hc
  refine ⟨dest.cids_lt c hm, fun c' hc' e ek => ?_⟩
  have ec : c' = c := dest.eq_of_cid hc' hm e
  subst ec
  obtain ⟨r, hr, hx⟩ := bind_eq_some_iff.mp hx
  exact ⟨r.doc, by rw [← ek, docAt, hr]; rfl, hx⟩

/-! ## 2. Worker steps -/

/-- **Steps on child jobs** keep the invariant. -/
theorem ChunkInv.sided (hI : ChunkInv E s) (h : Sided E s s') : ChunkInv E s' := by
  have hpieces : ∀ k, s'.dest.pieces k = s.dest.pieces k := by
    intro k
    rcases h.dest with e | ⟨it, -, e⟩
    · rw [e]
    · rw [e, Destination.pieces_write]
  exact
    { fresh := by
        rw [h.rows]
        rcases h.dest with e | ⟨it, hit, e⟩
        · rw [e]
          exact hI.fresh
        · rw [e]
          refine hI.fresh.write fun c hc hp v hv => ?_
          simp only [Bool.and_eq_true, beq_iff_eq, decide_eq_true_eq] at hp
          obtain ⟨d, hd, hr⟩ := (hI.reading it hit).2 c hc hp.1 hp.2
          cases hv
          exact ⟨d, it.text, hp.2 ▸ hd, hr, rfl⟩
      settled := by
        intro k d t hd ht
        rw [h.rows] at hd
        rw [hpieces, pending_of_sidesteps h.queue]
        rcases hI.settled k d t hd ht with hs | hs | ⟨j, hj, e⟩
        · exact .inl hs
        · exact .inr (.inl hs)
        · exact .inr (.inr ⟨j, h.queue.dead j hj, e⟩)
      present := by
        intro k hk
        rw [h.rows]
        exact hI.present k ((pending_of_sidesteps h.queue).mp hk)
      reading := by
        intro it hit
        have hr : it.cid < s.dest.nextCid ∧ E.Renders s.db.rows s.dest it.cid it.pk it.text := by
          rcases h.items it hit with hit | ⟨c, hc, hx⟩
          · exact hI.reading it hit
          · exact renders_of_find hc hx
        rw [h.rows]
        rcases h.dest with e | ⟨it', -, e⟩
        · rw [e]
          exact hr
        · rw [e]
          exact ⟨hr.1, hr.2.write⟩
      flight := h.flight
      locks := hI.locks.mono fun x t hx => h.txns ▸ hx
      docs := by
        intro x t hx
        rw [h.txns] at hx
        refine (hI.docs x t hx).mono (fun k _ => by rw [h.rows]) h.queue.grows ?_
        intro k _ j hj _ hjs _
        exact h.queue.kept j hj (by rw [hjs]; rfl)
      seen := by
        intro x t hx
        rw [h.txns] at hx
        refine (hI.seen x t hx).mono (fun k _ => by rw [h.rows]) fun k _ hs => ?_
        exact sees_mono hs fun j hj _ hjs _ => h.queue.old j hj (by rw [hjs]; rfl) }

/-- A write-back of the group, or of some of its jobs. -/
theorem ChunkInv.applyChunks : ∀ {jobs : List (Nat × ItemOutcome)} {s s' : ChunkSys K δ C X V},
    ChunkInv E s → applyChunks E s jobs = some s' → ChunkInv E s'
  | [], s, s', hI, h => by
    cases h
    exact hI
  | (id, o) :: jobs, s, s', hI, h => by
    unfold Postvec.applyChunks at h
    split at h
    · cases h
    · rename_i s₁ h₁
      exact ChunkInv.applyChunks (hI.sided (applyChunk_sided hI.flight h₁)) h

/-- The worker crashes: what it had in flight is only claimed now. -/
theorem ChunkInv.crash (hI : ChunkInv E s) (ha : s.admitted = []) :
    ChunkInv E { s with inflight := [] } :=
  { hI with
    reading := fun it hit => by cases hit
    flight := by
      refine ⟨fun i hi => ?_, fun i hi => ?_, hI.flight.embeds⟩
      · simp [ChunkSys.held, ha] at hi
      · simp [ChunkSys.held, ha] at hi }

variable {t : Txn K δ Unit}

/-- A transaction holding the row of a pending refresh blocks it. -/
theorem ChunkInv.blocked (hI : ChunkInv E s) {k : K} (hp : s.db.queue.Pending (refreshSlot k))
    {x : Nat} (hx : s.db.txns.get x = some t) (hk : t.mine.get k ≠ none) :
    s.db.shareBlocked k = true := by
  unfold Db.shareBlocked
  rw [Bool.and_eq_true]
  refine ⟨isSome_iff_ne_none.mpr (hI.present k hp), Table.any_iff.mpr ⟨x, t, hx, ?_⟩⟩
  exact isSome_iff_ne_none.mpr hk

/-- What both outcomes of a refresh keep. -/
theorem ChunkInv.refreshed (hI : ChunkInv E s) {j : Job K} (hj : j ∈ s.db.queue.jobs)
    (hshare : s.db.shareBlocked j.slot.pk = false)
    (hrows : s'.db.rows = s.db.rows) (htxns : s'.db.txns = s.db.txns)
    (hin : s'.inflight = s.inflight) (hadm : s'.admitted = s.admitted)
    (hR : Refreshed s.db.queue s'.db.queue j.id j.slot.pk)
    (hfresh : E.Fresh s.db.rows s'.dest)
    (hread : ∀ it ∈ s.inflight, it.cid < s'.dest.nextCid ∧
      E.Renders s.db.rows s'.dest it.cid it.pk it.text)
    (hpieces : ∀ k, k ≠ j.slot.pk → s'.dest.pieces k = s.dest.pieces k)
    (hdoc : E.cut (docAt s.db.rows j.slot.pk) = some (s'.dest.pieces j.slot.pk) ∨
      s'.db.queue.Dead j.slot.pk) : ChunkInv E s' where
  fresh := by
    rw [hrows]
    exact hfresh
  settled := by
    intro k d t hd ht
    rw [hrows] at hd
    by_cases hk : k = j.slot.pk
    · rw [hk] at hd ⊢
      rcases hdoc with hdoc | hdead
      · rw [hd] at hdoc
        simp only [DocFormat.cut, bind_some, ht] at hdoc
        exact .inl hdoc
      · exact .inr (.inr hdead)
    · rw [hpieces k hk]
      rcases hI.settled k d t hd ht with hs | ⟨j', hj', hc', e⟩ | ⟨j', hj', e⟩
      · exact .inl hs
      · -- another document's refresh is another job
        refine .inr (.inl ⟨j', hR.kept j' hj' (by rw [e]; rfl) fun ei => hk ?_, hc', e⟩)
        rw [← s.db.queue.eq_of_id hj' hj ei, e]
        rfl
      · exact .inr (.inr ⟨j', hR.dead j' hj' (e ▸ hk), e⟩)
  present := by
    intro k hk
    obtain ⟨j', hj', hc', e⟩ := hk
    rw [hrows]
    exact hI.present k ⟨j', (hR.old j' hj' (by rw [e]; rfl)).1, hc', e⟩
  reading := by
    intro it hit
    rw [hin] at hit
    rw [hrows]
    exact hread it hit
  flight := by
    have hheld : s'.held = s.held := by rw [ChunkSys.held, hin, hadm]; rfl
    exact hI.flight.grows hR.grows (fun j' hj' e _ => (hR.old j' hj' e).1) fun i hi => hheld ▸ hi
  locks := hI.locks.mono fun x t hx => htxns ▸ hx
  docs := by
    intro x t hx
    rw [htxns] at hx
    refine (hI.docs x t hx).mono (fun k _ => by rw [hrows]) hR.grows ?_
    intro k hk j' hj' hc' e _
    refine hR.kept j' hj' (by rw [e]; rfl) fun ei => ?_
    -- the transaction holds the document, so the refresh would have waited
    have ej : j' = j := s.db.queue.eq_of_id hj' hj ei
    have hb := hI.blocked ⟨j', hj', hc', e⟩ hx hk
    rw [ej] at e
    rw [e] at hshare
    rw [show (refreshSlot k).pk = k from rfl, hb] at hshare
    cases hshare
  seen := by
    intro x t hx
    rw [htxns] at hx
    refine (hI.seen x t hx).mono (fun k _ => by rw [hrows]) fun k _ hs => ?_
    exact sees_mono hs fun j' hj' _ hjs _ => (hR.old j' hj' (by rw [hjs]; rfl)).1

/-- **A refresh.** -/
theorem ChunkInv.refresh (hI : ChunkInv E s) {id : Nat}
    (h : processOneRefresh E s id = some s') : ChunkInv E s' := by
  obtain ⟨j, hj, rfl, -, -, -, -, hshare, h⟩ := processOneRefresh_cases h
  rcases h with ⟨ps, hps, rfl⟩ | rfl
  · refine hI.refreshed hj hshare rfl rfl rfl rfl (refreshed_replace _ _ _ _)
      (hI.fresh.replace hps) ?_ ?_ (.inl ?_)
    · intro it hit
      obtain ⟨hlt, hr⟩ := hI.reading it hit
      exact ⟨Nat.lt_of_lt_of_le hlt (Nat.le_add_right _ _), hr.replace hlt⟩
    · intro k hk
      simp only [replaceChunks, Destination.pieces_insert, if_neg (Ne.symm hk), append_nil]
      exact Destination.pieces_delete_of_false (by simp [hk])
    · simp only [replaceChunks, Destination.pieces_insert, if_true]
      rw [Destination.pieces_delete_of_true (by simp), nil_append]
      exact hps
  · refine hI.refreshed hj hshare rfl rfl rfl rfl (refreshed_dead _ _ _) hI.fresh hI.reading
      (fun _ _ => rfl) (.inr ?_)
    refine ⟨Queue.claimJob (fun j' => j'.id == j.id) j,
      Queue.mem_dead_moveToDead.mpr (.inr ⟨?_, ?_⟩), ?_⟩
    · exact Queue.mem_claim.mpr ⟨j, hj, rfl⟩
    · simp
    · rw [Queue.claimJob_slot]

/-! ## 3. Writers -/

/-- A transaction begins. -/
theorem ChunkInv.begin (hI : ChunkInv E s) :
    ChunkInv E { s with db := { s.db with
      txns := s.db.txns.put s.db.nextXid .fresh, nextXid := s.db.nextXid + 1 } } :=
  { hI with
    flight := ⟨hI.flight.issued, hI.flight.claimed, hI.flight.embeds⟩
    locks := hI.locks.begin
    docs := by
      intro x t hx
      rcases Table.get_put_some hx with ⟨-, rfl⟩ | hx
      · exact Txn.Docs.fresh _ _ _
      · exact (hI.docs x t hx).congr rfl rfl
    seen := by
      intro x t hx
      rcases Table.get_put_some hx with ⟨-, rfl⟩ | hx
      · intro k hk
        rcases hk with hk | hk
        · cases hk
        · exact absurd rfl hk
      · exact hI.seen x t hx }

/-- A statement runs in transaction `x`. -/
theorem ChunkInv.exec [BEq δ] (hI : ChunkInv E s) {x : Nat}
    {st : Stmt K δ} (hx : s.db.txns.get x = some t) (hl : s.db.locked x st = false)
    (hok : st.ok (t.table x s.db.rows) = true)
    (hadm : ∀ chs, st = .update chs → Orderly (images (t.table x s.db.rows) chs))
    (hren : ∀ chs, st = .update chs → Rendered E.shown (images (t.table x s.db.rows) chs)) :
    ChunkInv E { s with db := { s.db with
      txns := s.db.txns.put x (t.exec (chunkTriggers E.source E.mode) x s.db st) } } := by
  have hT : DocTriggers E.source (chunkTriggers E.source E.mode : Triggers K δ) :=
    docTriggers_chunk E.source E.mode
  have hdocs : (t.exec (chunkTriggers E.source E.mode) x s.db st).Docs E.shown s.db x ∧
      (t.exec (chunkTriggers E.source E.mode) x s.db st).Seen s.db x := by
    by_cases hst : st = .truncate
    · rw [hst]
      exact ⟨(hI.docs x t hx).truncate hT, Txn.Seen.truncate hT⟩
    · exact ⟨(hI.docs x t hx).exec hst hT hadm hok hren,
        (hI.seen x t hx).exec hT (refreshPurges_chunk E.source E.mode) hok hst hadm⟩
  exact
    { hI with
      flight := ⟨hI.flight.issued, hI.flight.claimed, hI.flight.embeds⟩
      locks := hI.locks.exec hx hl
      docs := by
        intro y u hu
        rcases Table.get_put_some hu with ⟨rfl, rfl⟩ | hu
        · exact hdocs.1.congr rfl rfl
        · exact (hI.docs y u hu).congr rfl rfl
      seen := by
        intro y u hu
        rcases Table.get_put_some hu with ⟨rfl, rfl⟩ | hu
        · exact hdocs.2
        · exact hI.seen y u hu }

/-- A transaction is rolled back. -/
theorem ChunkInv.rollback (hI : ChunkInv E s) (x : Nat) :
    ChunkInv E { s with db := { s.db with txns := s.db.txns.erase x } } :=
  { hI with
    flight := ⟨hI.flight.issued, hI.flight.claimed, hI.flight.embeds⟩
    locks := hI.locks.mono fun _ _ hu => (Table.get_erase_some hu).2
    docs := fun y u hu => (hI.docs y u (Table.get_erase_some hu).2).congr rfl rfl
    seen := fun y u hu => hI.seen y u (Table.get_erase_some hu).2 }

/-- The state after transaction `x` has committed. -/
def ChunkSys.committed (s : ChunkSys K δ C X V) (x : Nat) (t : Txn K δ Unit) :
    ChunkSys K δ C X V :=
  { s with
    db := { s.db with
      rows := t.table x s.db.rows
      queue := t.commitQueue s.db.queue
      txns := s.db.txns.erase x }
    dest := s.dest.delete t.cut }

/-- **A transaction commits.** -/
theorem ChunkInv.commit (hI : ChunkInv E s) {x : Nat}
    (hx : s.db.txns.get x = some t) : ChunkInv E (s.committed x t) := by
  have ht := hI.docs x t hx
  -- a document that keeps its chunks shows what it showed
  have hkeep : ∀ c ∈ s.dest.chunks, t.cut c.pk = true ∨
      (docAt (t.table x s.db.rows) c.pk).map E.shown = (docAt s.db.rows c.pk).map E.shown := by
    intro c hc
    rcases ht.committed c.pk with ⟨-, e, -⟩ | ⟨hcut | hnone, -⟩
    · refine .inr ?_
      simp only [docAt, Option.map_map]
      exact e
    · exact .inl hcut
    · exact absurd (by rw [docAt, hnone]; rfl) (hI.fresh.docAt_ne_none hc)
  exact
    { fresh := hI.fresh.commit hkeep
      settled := by
        intro k d tx hd htx
        rcases ht.committed k with ⟨hcut, e, hjobs, hdead⟩ | ⟨-, hrow⟩
        · obtain ⟨r, hr, rfl⟩ := map_eq_some_iff.mp hd
          rw [show (t.table x s.db.rows).get k = some r from hr] at e
          obtain ⟨r₀, hr₀, es⟩ := map_eq_some_iff.mp e.symm
          have hd₀ : docAt s.db.rows k = some r₀.doc := by rw [docAt, hr₀]; rfl
          have hsrc : E.source r₀.doc = some tx := (congrArg Prod.fst es).trans htx
          have hp : (s.committed x t).dest.pieces k = s.dest.pieces k :=
            Destination.pieces_delete_of_false hcut
          rw [hp]
          rcases hI.settled k _ tx hd₀ hsrc with hs | ⟨j, hj, hc, ej⟩ | ⟨j, hj, ej⟩
          · exact .inl hs
          · exact .inr (.inl ⟨j, hjobs j hj (by rw [ej]; rfl), hc, ej⟩)
          · exact .inr (.inr ⟨j, hdead j hj ej, ej⟩)
        · obtain ⟨r, hr, rfl⟩ := map_eq_some_iff.mp hd
          rcases hrow r hr with hn | hp
          · rw [show E.source r.doc = none from hn] at htx
            cases htx
          · exact .inr (.inl hp)
      present := fun k hk => (hI.seen x t hx).committed ht hI.present k hk
      reading := by
        intro it hit
        obtain ⟨hlt, hr⟩ := hI.reading it hit
        exact ⟨hlt, hr.commit hI.fresh hkeep⟩
      flight := by
        refine hI.flight.grows (grows_commitQueue t s.db.queue) (fun j hj _ hc => ?_) fun _ h => h
        rcases mem_commitQueue hj with ⟨hj, -⟩ | ⟨hp, -, -⟩
        · exact hj
        · rw [hp] at hc
          cases hc
      locks := hI.locks.mono fun _ _ hu => (Table.get_erase_some hu).2
      docs := by
        intro y u hu
        obtain ⟨hyx, hu⟩ := Table.get_erase_some hu
        exact Txn.Docs.of_commit hI.locks hx hu (Ne.symm hyx) ht (hI.docs y u hu)
      seen := by
        intro y u hu
        obtain ⟨hyx, hu⟩ := Table.get_erase_some hu
        exact Txn.Seen.of_commit hI.locks hx hu (Ne.symm hyx) ht (hI.seen y u hu) }

/-! ## 4. Convergence -/

/-- The condition on steps: no `UPDATE` moves a row onto a key that a later row of the statement
    leaves, and none changes the source or a rendering of a row whose columns are not distinct from
    what they were. Under a primary key that is checked row by row the first is always so. -/
def ChunkSys.orderly [BEq δ] [DecidableEq T] [DecidableEq X] (E : ChunkEntry δ T C X V)
    (s : ChunkSys K δ C X V) : ChunkAct K δ → Bool
  | .writer (.exec x (.update chs)) =>
    decide (chs.Pairwise fun c c' => c'.old ≠ c'.new → c'.old ≠ c.new) &&
      s.db.alike E.shown (.exec x (.update chs))
  | _ => true

/-- Every step under the condition keeps the invariant. -/
theorem ChunkInv.step [BEq δ] [DecidableEq T] [DecidableEq X] (hI : ChunkInv E s)
    {a : ChunkAct K δ} (hc : s.orderly E a = true) (h : s.step E a = some s') : ChunkInv E s' := by
  cases a with
  | writer w =>
    obtain ⟨db, hw, rfl⟩ := map_eq_some_iff.mp h
    rcases writer_cases hw with ⟨rfl, rfl⟩ | ⟨x, st, t, rfl, ht, hl, hok, rfl⟩ |
      ⟨x, t, rfl, ht, rfl⟩ | ⟨x, t, rfl, -, rfl⟩
    · exact hI.begin
    · refine hI.exec ht hl hok (fun chs e => ?_) fun chs e => ?_ <;> subst e
      · exact orderly_images (ok_update hok).1 (of_decide_eq_true (Bool.and_eq_true_iff.mp hc).1)
      · exact rendered_of_alike (Bool.and_eq_true_iff.mp hc).2 ht chs rfl
    · simp only [ht]
      exact hI.commit ht
    · exact hI.rollback x
  | refresh id => exact hI.refresh h
  | claimChunks ids => exact hI.sided (claimChunks_sided hI.flight h)
  | renderChunks => exact hI.sided (renderChunks_sided hI.flight h)
  | applyGroup jobs => exact hI.applyChunks h
  | releaseFailed ids => exact hI.sided (releaseChunks_sided hI.flight h)
  | reclaimStale ids => exact hI.sided (reclaimChunks_sided hI.flight h)
  | crash =>
    simp only [ChunkSys.step, ite_none_right_eq_some, List.isEmpty_iff,
      Option.some.injEq] at h
    obtain ⟨ha, rfl⟩ := h
    exact hI.crash ha

/-- The state `enable` leaves: an empty destination, and a pending refresh for every row with a
    source and for no key without a row. -/
structure ChunkSys.Start (E : ChunkEntry δ T C X V) (s : ChunkSys K δ C X V) : Prop where
  idle : ∀ x, s.db.txns.get x = none
  quiet : s.admitted = [] ∧ s.inflight = []
  blank : s.dest.chunks = []
  queued : ∀ k d, docAt s.db.rows k = some d → E.source d ≠ none →
    s.db.queue.Pending (refreshSlot k)
  jobs : ∀ j ∈ s.db.queue.jobs, j.claimed = false ∧ s.db.rows.get j.slot.pk ≠ none

theorem ChunkSys.Start.inv (h : s.Start E) : ChunkInv E s where
  fresh := ⟨fun c hc => by simp [h.blank] at hc, fun c hc => by simp [h.blank] at hc⟩
  settled := fun k d t hd ht => .inr (.inl (h.queued k d hd (by simp [ht])))
  present := by
    intro k hk
    obtain ⟨j, hj, -, e⟩ := hk
    have := (h.jobs j hj).2
    rw [e] at this
    exact this
  reading := fun it hit => by simp [h.quiet.2] at hit
  flight := by
    refine ⟨fun i hi => ?_, fun i hi => ?_, fun j hj hc => ?_⟩
    · simp [ChunkSys.held, h.quiet] at hi
    · simp [ChunkSys.held, h.quiet] at hi
    · rw [(h.jobs j hj).1] at hc
      cases hc
  locks := ⟨fun x y t t' hx => by simp [h.idle] at hx, fun x y t t' hx => by simp [h.idle] at hx⟩
  docs := fun x t hx => by simp [h.idle] at hx
  seen := fun x t hx => by simp [h.idle] at hx

/-- **Convergence.** In every run of writers, refreshes, child claims, write-backs, reclaims and
    crashes whose `UPDATE`s are orderly, in every state reached: a document without a live or dead
    job has exactly the pieces of its current source, none if it has no row or no source; every
    chunk's vector is the one of the chunk rendered with the current row; and every chunk is one of
    the pieces of the committed row's source. -/
theorem chunkSync_converges [BEq δ] [DecidableEq T] [DecidableEq X] (E : ChunkEntry δ T C X V)
    (s₀ s : ChunkSys K δ C X V) (h₀ : s₀.Start E)
    (h : Reach (ChunkSys.step E) (fun s a => s.orderly E a = true) s₀ s) :
    (∀ k, ¬ s.db.queue.Live k → ¬ s.db.queue.Dead k →
      E.cut (docAt s.db.rows k) = some (s.dest.pieces k)) ∧
    (∀ c ∈ s.dest.chunks, ∀ v, c.vec = some v →
      ∃ d x, docAt s.db.rows c.pk = some d ∧ E.render d c.piece = some x ∧ v = E.embed x) ∧
    ∀ c ∈ s.dest.chunks, E.cut (docAt s.db.rows c.pk) = some (s.dest.pieces c.pk) := by
  have hI : ChunkInv E s := h.invariant h₀.inv fun s a s' hI hc hs => hI.step hc hs
  refine ⟨fun k hlive hdead => ?_, hI.fresh.vectors, hI.fresh.pieces⟩
  cases hs : (docAt s.db.rows k).bind E.source with
  | none =>
    rw [hI.fresh.pieces_nil hs, DocFormat.cut, hs]
  | some t =>
    obtain ⟨d, hd, ht⟩ := bind_eq_some_iff.mp hs
    rcases hI.settled k d t hd ht with hp | ⟨j, hj, -, e⟩ | hd'
    · rw [DocFormat.cut, hs]
      exact hp
    · exact absurd ⟨j, hj, by rw [e]; rfl⟩ hlive
    · exact absurd hd' hdead

end Invariant

/-! ## 5. Two runs -/

section Runs

/-- An entry whose documents are one piece each, and whose model returns the piece. -/
def pieceEntry (mode : TriggerMode) : ChunkEntry (Option Nat) Nat Nat Nat Nat where
  source := id
  split := fun t => some [t]
  render := fun _ c => some c
  embed := id
  docBytes := fun _ => 1
  maxDocument := 100
  bytes := fun _ => 1
  width := fun _ => 1
  dim := 1
  itemCap := 10
  budget := 10
  batchSize := 10
  maxRetries := 3
  mode := mode

/-- An empty table with an empty queue and destination. -/
def ChunkSys.initial : ChunkSys Nat (Option Nat) Nat Nat Nat where
  db := ⟨.empty, .empty, .empty, 0⟩
  dest := .empty
  admitted := []
  inflight := []

theorem ChunkSys.initial_start (mode : TriggerMode) :
    ChunkSys.initial.Start (pieceEntry mode) where
  idle := fun _ => rfl
  quiet := ⟨rfl, rfl⟩
  blank := rfl
  queued := fun k d hd => by cases hd
  jobs := fun j hj => by cases hj

/-- Rows 1 and 2 with the same text are inserted; one `UPDATE` then moves 1 to 2 and 2 to 3. -/
def shiftedRun : List (ChunkAct Nat (Option Nat)) :=
  [.writer .begin, .writer (.exec 0 (.insert [(1, some 10), (2, some 10)])), .writer (.commit 0),
    .writer .begin, .writer (.exec 1 (.update [⟨1, 2, some 10⟩, ⟨2, 3, some 10⟩])),
    .writer (.commit 1)]

/-- **A lost document.** In either trigger mode a reachable state without open transactions has the
    row 2 with a source, and neither a chunk of it nor a job, live or dead. -/
theorem lost_document_reachable :
    (∃ s, Reach (ChunkSys.step (pieceEntry .statement)) (fun _ _ => True) ChunkSys.initial s ∧
      docAt s.db.rows 2 = some (some 10) ∧ (∀ x, s.db.txns.get x = none) ∧
      ¬ s.db.queue.Live 2 ∧ ¬ s.db.queue.Dead 2 ∧ s.dest.pieces 2 = []) ∧
    ∃ s, Reach (ChunkSys.step (pieceEntry .row)) (fun _ _ => True) ChunkSys.initial s ∧
      docAt s.db.rows 2 = some (some 10) ∧ (∀ x, s.db.txns.get x = none) ∧
      ¬ s.db.queue.Live 2 ∧ ¬ s.db.queue.Dead 2 ∧ s.dest.pieces 2 = [] := by
  let p : ChunkSys Nat (Option Nat) Nat Nat Nat → Bool := fun s =>
    decide (docAt s.db.rows 2 = some (some 10) ∧ (s.db.txns.any fun _ _ => true) = false ∧
      ¬ s.db.queue.Live 2 ∧ ¬ s.db.queue.Dead 2 ∧ s.dest.pieces 2 = [])
  have hs : ∀ mode, (runWhile (ChunkSys.step (pieceEntry mode)) (fun _ _ => True) ChunkSys.initial
      shiftedRun).any p = true := by
    intro mode
    cases mode <;> decide
  refine ⟨?_, ?_⟩ <;>
  · obtain ⟨s, hreach, hp⟩ := Reach.exists_of_runWhile (hs _)
    obtain ⟨hdoc, htx, hq⟩ := of_decide_eq_true hp
    exact ⟨s, hreach, hdoc, Table.get_eq_none_of_any htx, hq⟩

/-- The same shift from its other end, then a refresh, a claim and a write-back of each document. -/
def orderedRun : List (ChunkAct Nat (Option Nat)) :=
  [.writer .begin, .writer (.exec 0 (.insert [(1, some 10), (2, some 10)])), .writer (.commit 0),
    .writer .begin, .writer (.exec 1 (.update [⟨2, 3, some 10⟩, ⟨1, 2, some 10⟩])),
    .writer (.commit 1), .refresh 2, .refresh 3, .claimChunks [4, 5], .renderChunks,
    .applyGroup [(4, .ok), (5, .ok)]]

/-- A run that meets the condition: the document under key 2 ends with its piece. -/
theorem orderedRun_converges :
    ∃ s, Reach (ChunkSys.step (pieceEntry .row)) (fun s a => s.orderly (pieceEntry .row) a = true)
        ChunkSys.initial s ∧
      docAt s.db.rows 2 = some (some 10) ∧ s.db.queue.jobs = [] ∧
      (pieceEntry .row).cut (docAt s.db.rows 2) = some (s.dest.pieces 2) := by
  let p : ChunkSys Nat (Option Nat) Nat Nat Nat → Bool := fun s =>
    decide (docAt s.db.rows 2 = some (some 10) ∧ s.db.queue.jobs = [] ∧ s.db.queue.dead = [])
  have h : (runWhile (ChunkSys.step (pieceEntry .row))
    (fun s a => s.orderly (pieceEntry .row) a = true)
      ChunkSys.initial orderedRun).any p = true := by decide
  obtain ⟨s, hs, hp⟩ := Reach.exists_of_runWhile h
  obtain ⟨hdoc, hjobs, hdead⟩ := of_decide_eq_true hp
  refine ⟨s, hs, hdoc, hjobs, (chunkSync_converges (pieceEntry .row) _ s
    (ChunkSys.initial_start .row) hs).1 2 ?_ ?_⟩
  · rintro ⟨j, hj, -⟩
    rw [hjobs] at hj
    cases hj
  · rintro ⟨j, hj, -⟩
    rw [hdead] at hj
    cases hj

end Runs

end Postvec
