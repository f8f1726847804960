import Postvec.Managed.Migration
import Postvec.Managed.Reliance

/-!
# A migration of a managed column-mode entry: the invariant

What a row can rely on while a migration goes on, whatever that is: a property `G` of rows that
every write upholds (`Upheld`). The invariant (`Inv`) says that each row has it, or a job or dead
job of its key stands for it (`Relied`), and that a version found again is the row that was read.
Every step keeps it (`Inv.step`) but for

* a claim of a job whose row is not there, while an open transaction has a row under its key
  (`Sys.minding`);
* a quarantine, which deletes jobs that stood for rows, and statements run while the entry is
  disabled, which enqueue none (`Sys.careful`). They are harmless for a property that says nothing
  of rows once the migration has failed.
-/

namespace Postvec.Managed.Migrating

open Machine List Option

variable {K δ T V : Type*}

/-! ## 1. Properties of rows -/

/-- What was sent is the row's current text or old vector. -/
def Sent (E : Entry δ T V) (r : Row δ (Cols V)) : T ⊕ V → Prop
  | .inl t => E.text r.doc = some t
  | .inr v => r.cols.old = some v

/-- A property of rows that the writes of a migration uphold. It may depend on whether the new
    column is there and on the routing. -/
structure Upheld (E : Entry δ T V) (G : Bool → Route → Row δ (Cols V) → Prop) : Prop where
  owed : ∀ h ρ, Owed E.text (G h ρ)
  /-- the write of a job -/
  embedded : ∀ h ρ (r : Row δ (Cols V)), G h ρ
    { r with cols := put ρ ((E.text r.doc).map (E.model ρ).embed) r.cols }
  /-- the write of the driver -/
  driven : ∀ r x, G true .new r → r.cols.new = none → Sent E r x →
    G true .new { r with cols := { r.cols with new := some (E.answer x) } }
  dropped : ∀ h ρ r, G h ρ r → G false ρ { r with cols := { r.cols with new := none } }
  failed : ∀ h r, G h .new r → G h .old r

/-! ## 2. The invariant -/

/-- What the driver has read of a row holds of the row with its version. -/
def PickedFrom (E : Entry δ T V) (db : Db K δ (Cols V)) (p : Picked K T V) : Prop :=
  db.Seen p.pk p.version fun r => ∀ x ∈ p.payload, Sent E r x

/-- The job does not end unchecked: the routing has changed since it was claimed, or it is not in
    flight without a version. -/
def Sys.Sure (s : Sys K δ T V) (i : Nat) : Prop := s.expected ≠ s.route ∨ Minded s.inflight i

structure Inv (E : Entry δ T V) (G : Bool → Route → Row δ (Cols V) → Prop) (s : Sys K δ T V) :
    Prop where
  relied : Relied E.text (G s.hasNew s.route) s.Sure s.db
  reading : s.expected = s.route → ∀ it ∈ s.inflight, ReadFrom E.text s.db it
  picked : ∀ b ∈ s.batch, ∀ p ∈ b, PickedFrom E s.db p
  flight : Flight s.db.queue s.inflight
  apart : s.batch ≠ none → s.inflight = []
  off : s.enabled = false → s.route = .old

section Steps

variable {E : Entry δ T V} {G : Bool → Route → Row δ (Cols V) → Prop} {s s' : Sys K δ T V}

theorem Sys.sure_nil (h : s.inflight = []) (i : Nat) : s.Sure i := by
  refine .inr ?_
  rw [h]
  exact minded_nil i

variable {items : List (Item K T Nat)} {db : Db K δ (Cols V)}

/-- A job that is not in flight any more is as sure as it was. -/
theorem Sys.Sure.mono (hin : ∀ it ∈ items, it ∈ s.inflight) {i : Nat} (h : s.Sure i) :
    Sys.Sure { s with db := db, inflight := items } i :=
  h.imp_right fun h => h.mono hin

theorem Inv.forget (hI : Inv E G s) : Inv E G { s with batch := none } :=
  { hI with
    picked := fun _ h => by cases h
    apart := fun h => absurd rfl h }

/-- Items of a flight that is empty while a batch is read. -/
theorem Inv.apart_of_subset (hI : Inv E G s)
    (hin : ∀ it ∈ items, it ∈ s.inflight) (hb : s.batch ≠ none) : items = [] := by
  refine eq_nil_iff_forall_not_mem.mpr fun it hit => ?_
  have := hin it hit
  rw [hI.apart hb] at this
  cases this

/-- The routing falls back to the old column. -/
theorem Inv.fails (hI : Inv E G s) (hG : Upheld E G) :
    Relied E.text (G s.hasNew .old) s.Sure s.db := by
  refine hI.relied.mono fun r hr => ?_
  cases hρ : s.route with
  | old => rwa [hρ] at hr
  | new =>
    rw [hρ] at hr
    exact hG.failed _ _ hr

/-- The new column is dropped while no open transaction has written the table. -/
theorem Inv.withoutNew (hI : Inv E G s) (hG : Upheld E G)
    (hfree : ∀ x t, s.db.txns.get x = some t → t.wrote = false) : Inv E G (withoutNew s) where
  relied := hI.relied.map hfree (fun _ => rfl) fun r hr => hG.dropped _ _ r hr
  reading := fun he it hit v hv => (hI.reading he it hit v hv).map (fun _ => rfl) fun _ h => h
  picked := by
    intro b hb p hp
    refine (hI.picked b hb p hp).map (fun _ => rfl) fun r h x hx => ?_
    cases x with
    | inl | inr => exact h _ hx
  flight := hI.flight
  apart := hI.apart
  off := hI.off

variable [LinearOrder K] {id : Nat}

/-- With nothing in flight, every job is sure. -/
theorem relied_sure {g : Row δ (Cols V) → Prop} {sure : Nat → Prop} (h : s.inflight = [])
    (hR : Relied E.text g sure db) : Relied E.text g s.Sure db :=
  hR.requeued (requeued_same fun i _ => Sys.sure_nil h i)

/-! ## 3. The embed step -/

omit [LinearOrder K] in
/-- Pending jobs are not in flight. -/
theorem Inv.pending (hI : Inv E G s) (hin : ∀ it ∈ items, it ∈ s.inflight) (q : Queue K)
    (hg : Queue.Grows s.db.queue q) : ∀ j ∈ q.jobs, j.claimed = false →
      Sys.Sure { s with inflight := items } j.id :=
  fun _ hj hp => .inr ((hI.flight.grows hg hin).minded_of_pending hj hp)

/-- The queue changes, and items leave the flight. -/
theorem Inv.requeue (hI : Inv E G s) {q : Queue K} (hin : ∀ it ∈ items, it ∈ s.inflight)
    (h : Requeued s.Sure
      (Sys.Sure { s with db := { s.db with queue := q }, inflight := items }) s.db
      { s.db with queue := q }) :
    Inv E G { s with db := { s.db with queue := q }, inflight := items } where
  relied := hI.relied.requeued h
  reading := fun he it hit => hI.reading he it (hin it hit)
  picked := hI.picked
  flight := hI.flight.grows h.grows hin
  apart := hI.apart_of_subset hin
  off := hI.off

/-- What is in memory is lost. -/
theorem Inv.lost (hI : Inv E G s) : Inv E G { s with inflight := [] } :=
  hI.requeue (fun _ h => by cases h) (requeued_same fun _ hi => hi.mono fun _ h => by cases h)

/-- A job is released. -/
theorem Inv.released (hI : Inv E G s) {backoff : Bool}
    (hr : releaseWaits s.db id backoff = false) (hin : ∀ it ∈ items, it ∈ s.inflight) :
    Inv E G { s with db := { s.db with queue := release s.db.queue id backoff }
                     inflight := items } :=
  hI.requeue hin (requeued_release (fun _ hi => hi.mono hin) hr (hI.pending hin))

variable {it : Item K T Nat} {a : Answer} {q : Queue K} {w : Option (Option V)}
  {its : List (Item K T Nat)}

/-- With the routing changed, a job is left or released. -/
theorem writeBackOne_changed {M : Model T V} {current : Option Nat} {blocked : Bool}
    (h : writeBackOne M db true current blocked it a = some (q, w)) :
    w = none ∧ (q = db.queue ∨ releaseWaits db it.id false = false ∧
      q = release db.queue it.id false) := by
  have hend : ending M db.queue true it a.outcome = .skip ∨
      ending M db.queue true it a.outcome = .release false := by
    unfold ending
    split
    · exact .inl rfl
    · exact .inr rfl
  unfold writeBackOne at h
  rcases hend with he | he
  · rw [he] at h
    cases h
    exact ⟨rfl, .inl rfl⟩
  · rw [he] at h
    obtain ⟨q', hq', e⟩ := map_eq_some_iff.mp h
    cases e
    exact ⟨rfl, .inr (tryRelease_some hq')⟩

/-- The row is written where the routing says, and the job finished. -/
theorem Inv.written (hI : Inv E G s) (hG : Upheld E G)
    (hin : s.inflight = it :: its) (hroute : s.route = s.expected)
    (hsome : (s.db.rows.get it.pk).map Row.xmin ≠ none)
    (hver : it.version = (s.db.rows.get it.pk).map Row.xmin)
    (hb : s.db.shareBlocked it.pk = false) (hov : it.oversized = false) :
    Inv E G { s with
      db := applyWrite (put s.expected) s.db it.pk (finish s.db.queue it.id false)
        (some (it.text.map (E.model s.expected).embed))
      inflight := its } := by
  have hmem : it ∈ s.inflight := hin ▸ mem_cons_self
  have htail : ∀ it' ∈ its, it' ∈ s.inflight := fun it' h' => hin ▸ mem_cons_of_mem _ h'
  have hg := (keeps_finish s.db.queue it.id false).grows
  obtain ⟨r₀, hr₀⟩ := ne_none_iff_exists'.mp fun h => hsome (congrArg _ h)
  rw [hr₀, map_some] at hver
  have htext : it.text = E.text r₀.doc :=
    (hI.reading hroute.symm it hmem _ hver).2 r₀ hr₀ rfl hov
  refine
    { relied := hI.relied.wrote hr₀ hb hg (.inl ?_) ?_
      reading := fun he it' hit' v hv =>
        (hI.reading he it' (htail it' hit') v hv).writeVector _ _ _
      picked := fun b hb p hp => (hI.picked b hb p hp).writeVector _ _ _
      flight := hI.flight.grows hg htail
      apart := hI.apart_of_subset htail
      off := hI.off }
  · rw [htext, ← hroute]
    refine (hG.owed _ _).congr { r₀ with cols := put s.route _ r₀.cols } _ rfl rfl ?_
    exact hG.embedded _ _ r₀
  · -- the finished job stood for this key only
    intro dropped droppedDead _ k hne hk
    refine hk.finish_done (fun j hj e hjk _ => ?_) fun _ hi => hi.mono htail
    exact hne (hjk.symm.trans (hI.flight.claimed j hj it hmem e.symm).2.1)

/-- One job is written back. -/
theorem Inv.writeBackOne (hI : Inv E G s) (hG : Upheld E G) (hin : s.inflight = it :: its)
    (h : Managed.writeBackOne (E.model s.expected) s.db (decide (s.route ≠ s.expected))
      ((s.db.rows.get it.pk).map Row.xmin) (s.db.shareBlocked it.pk) it a = some (q, w)) :
    Inv E G { s with db := applyWrite (put s.expected) s.db it.pk q w, inflight := its } := by
  have hmem : it ∈ s.inflight := hin ▸ mem_cons_self
  have htail : ∀ it' ∈ its, it' ∈ s.inflight := fun it' h' => hin ▸ mem_cons_of_mem _ h'
  by_cases hroute : s.route = s.expected
  · rw [decide_eq_false (not_not.mpr hroute)] at h
    have hminded : ∀ i, s.Sure i → Minded s.inflight i :=
      fun i hi => hi.resolve_left (not_not.mpr hroute.symm)
    have hmono : ∀ i, s.Sure i → Sys.Sure { s with inflight := its } i := fun _ hi => hi.mono htail
    rcases (writeBackOne_cases h).requeued hmono (hI.pending htail)
      fun hv hs => hminded _ hs it hmem rfl hv with ⟨rfl, hq⟩ | ⟨rfl, rfl, hsome, hver, hb, hov⟩
    · exact hI.requeue htail hq
    · exact hI.written hG hin hroute hsome hver hb hov
  · rw [decide_eq_true hroute] at h
    obtain ⟨rfl, rfl | ⟨hr, rfl⟩⟩ := writeBackOne_changed h
    · exact hI.requeue htail (requeued_same fun _ hi => hi.mono htail)
    · exact hI.released hr htail

theorem Inv.writeBack (hG : Upheld E G) : ∀ {answers : List Answer} {s s' : Sys K δ T V},
    Inv E G s → writeBack E s answers = some s' → Inv E G s'
  | [], s, s', hI, h => by
    cases h
    exact hI.lost
  | a :: as, s, s', hI, h => by
    unfold Migrating.writeBack at h
    split at h
    · cases h
      exact hI
    · rename_i it its hin
      split at h
      · cases h
      · rename_i q w hw
        split at h
        · cases h
        · exact Inv.writeBack hG (hI.writeBackOne hG hin hw) h

variable {ids : List Nat}

/-- The condition on steps: a job of a key without a committed row is not claimed while an open
    transaction has a row under the key, other than a `fine` one, for which it has enqueued no job
    of its own; and an `UPDATE` of a row to columns that are not distinct keeps its text. -/
def Sys.minding [BEq δ] [DecidableEq T] (E : Entry δ T V) (fine : Row δ (Cols V) → Bool)
    (s : Sys K δ T V) : Act K δ → Bool
  | .claim ids => s.db.queue.jobs.all fun j =>
    !ids.contains j.id || (s.db.rows.get j.slot.pk).isSome ||
      !s.db.txns.any fun x t => ((t.table x s.db.rows).get j.slot.pk).any fun r =>
        !fine r && !t.own.contains (rowSlot j.slot.pk)
  | .writer w => s.db.alike E.text w
  | _ => true

variable {fine : Row δ (Cols V) → Bool}

/-- What the condition gives for a claimed job of an absent key. -/
theorem Sys.minding_claim [BEq δ] [DecidableEq T]
    (h : s.minding E fine (.claim ids) = true) {j : Job K} (hj : j ∈ s.db.queue.jobs)
    (hi : j.id ∈ ids) (hrow : s.db.rows.get j.slot.pk = none) {x : Nat} {t : Txn K δ (Cols V)}
    (ht : s.db.txns.get x = some t) {r : Row δ (Cols V)}
    (hr : (t.table x s.db.rows).get j.slot.pk = some r) :
    rowSlot j.slot.pk ∈ t.own ∨ fine r = true := by
  have hj' := List.all_eq_true.mp h j hj
  simp only [contains_iff_mem.mpr hi, hrow, isSome_none, Bool.not_true,
    Bool.false_or, Bool.not_eq_true'] at hj'
  have ht' := Table.any_eq_false_iff.mp hj' x t ht
  simp only [hr, any_some, Bool.and_eq_false_iff, Bool.not_eq_false',
    contains_iff_mem] at ht'
  exact ht'.symm

theorem Inv.claim [BEq δ] [DecidableEq T] (hI : Inv E G s)
    (hfine : ∀ h ρ r, fine r = true → G h ρ r)
    (hc : s.minding E fine (.claim ids) = true) (h : claim E s ids = some s') : Inv E G s' := by
  unfold Migrating.claim at h
  split at h
  · rename_i hidle
    obtain ⟨⟨q, items⟩, hq, rfl⟩ := map_eq_some_iff.mp h
    have hC := claimJobs_spec hq
    simp only [Sys.idle, Bool.and_eq_true, List.isEmpty_iff, isNone_iff_eq_none] at hidle
    have hR := hI.relied.claim hC fun j hj hi hnone x t ht r hr =>
      (s.minding_claim hc hj hi hnone ht hr).imp_right (hfine _ _ r)
    exact
      { relied := hR.requeued (requeued_same fun i hi => .inr hi)
        reading := fun _ it hit => hC.readFrom hI.relied.stamped hit
        picked := hI.picked
        flight := hC.flight
        apart := fun hb => absurd hidle.2.2 hb
        off := hI.off }
  · cases h

/-! ## 4. The driver -/

/-- A row the driver picks is as it has read it. -/
theorem pickedFrom_of_mem (hS : s.db.Stamped) {p : Picked K T V} (hp : p ∈ picks E s) :
    PickedFrom E s.db p := by
  obtain ⟨k, -, hk⟩ := mem_filterMap.mp hp
  obtain ⟨r, hr, hk⟩ := bind_eq_some_iff.mp hk
  split at hk
  · cases hk
    refine ⟨hS.rows k r hr, fun r' hr' _ x hx => ?_⟩
    have hr' : s.db.rows.get k = some r' := hr'
    rw [hr] at hr'
    cases hr'
    -- what is sent is what the row has
    simp only [Entry.payload, mem_def] at hx
    split at hx
    · obtain ⟨t, ht, rfl⟩ := map_eq_some_iff.mp hx
      exact (eq_some_of_filter_eq_some ht)
    · obtain ⟨v, hv, rfl⟩ := map_eq_some_iff.mp hx
      exact (eq_some_of_filter_eq_some hv)
  · cases hk

theorem Inv.readBatch (hI : Inv E G s) (h : readBatch E s = some s') : Inv E G s' := by
  unfold Migrating.readBatch at h
  split at h
  · rename_i hc
    simp only [Sys.idle, Bool.and_eq_true, List.isEmpty_iff, isNone_iff_eq_none,
      decide_eq_true_eq, Bool.not_eq_true'] at hc
    obtain ⟨⟨⟨⟨hen, hin, hba⟩, -⟩, hrun⟩, -⟩ := hc
    have hroute : s.route = .new := by simp [Sys.route, hrun]
    split at h
    · split at h
      · cases h
        have e : Sys.route { s with state := .awaitingFinalize } = s.route := by
          rw [hroute]
          simp [Sys.route]
        refine
          { relied := ?_
            reading := fun he => hI.reading (he.trans e)
            picked := hI.picked
            flight := hI.flight
            apart := hI.apart
            off := fun he => by rw [show s.enabled = false from he] at hen; cases hen }
        rw [e]
        exact relied_sure (s := { s with state := .awaitingFinalize }) hin hI.relied
      · cases h
        exact hI
    · cases h
      refine { hI with picked := ?_, apart := fun _ => hin }
      intro b hb p hp
      cases hb
      exact pickedFrom_of_mem hI.relied.stamped (mem_of_mem_take hp)
  · cases h

/-- **The driver's loop.** A row it writes had the property or something stands for it, and so it is
    still. -/
theorem relied_driveRows (hG : Upheld E G) {sure : Nat → Prop} : ∀ {b : List (Picked K T V)}
    {os : List Outcome} {db : Db K δ (Cols V)} {mark : Option K}
    {r : Db K δ (Cols V) × Bool × Option K}, Relied E.text (G true .new) sure db →
    (∀ p ∈ b, PickedFrom E db p) → driveRows E db mark b os = some r →
    Relied E.text (G true .new) sure r.1
  | [], os, db, mark, r, hR, _, h => by
    cases h
    exact hR
  | p :: ps, os, db, mark, r, hR, hp, h => by
    have htail : ∀ q ∈ ps, PickedFrom E db q := fun q hq => hp q (mem_cons_of_mem _ hq)
    unfold Migrating.driveRows at h
    split at h
    · exact relied_driveRows hG hR htail h
    · exact relied_driveRows hG hR htail h
    · rename_i x os hx
      split at h
      · rename_i hun
        split at h
        · cases h
        · rename_i hb
          obtain ⟨r₀, hr₀, hun⟩ := Option.any_eq_true _ _ |>.mp hun
          simp only [Bool.and_eq_true, decide_eq_true_eq, isNone_iff_eq_none] at hun
          have hsent := (hp p mem_cons_self).2 r₀ hr₀ hun.1 x hx
          let f : Cols V → Cols V := fun c => { c with new := some (E.answer x) }
          have hgood : G true .new r₀ → G true .new { r₀ with
              cols := f r₀.cols, xmin := db.nextXid } := fun hgood =>
            (hG.owed _ _).congr { r₀ with cols := f r₀.cols } _ rfl rfl
              (hG.driven r₀ x hgood hun.2 hsent)
          have hR' : Relied E.text (G true .new) sure (writeVector db p.pk f) :=
            hR.wrote (f := f) hr₀ (by simpa using hb) (Queue.Grows.refl _)
              ((hR.settled p.pk r₀ hr₀).imp_left hgood) fun _ _ _ _ _ h => h
          exact relied_driveRows hG hR' (fun q hq => (htail q hq).writeVector p.pk f db.queue) h
      · cases h
        exact hR
    · cases h
      exact hR
    · cases h
      exact hR
    · exact relied_driveRows hG hR htail h

theorem Inv.writeBatch (hI : Inv E G s) (hG : Upheld E G) {outcomes : List Outcome}
    (h : writeBatch E s outcomes = some s') : Inv E G s' := by
  unfold Migrating.writeBatch at h
  split at h
  · cases h
  · rename_i b hb
    have hin : s.inflight = [] := hI.apart (by simp [hb])
    split at h
    · cases h
    · rename_i hnew
      simp only [Bool.or_eq_true, Bool.not_eq_true', not_or, Bool.not_eq_false] at hnew
      split at h
      · cases h
        exact hI.forget
      · rename_i hrun
        have hrun : s.state = .running := not_not.mp hrun
        have hroute : s.route = .new := by simp [Sys.route, hrun]
        obtain ⟨⟨db, failed, mark⟩, hd, rfl⟩ := map_eq_some_iff.mp h
        have hR := hI.relied
        rw [hnew.1, hroute] at hR
        have hD : Relied E.text (G true .new) s.Sure db :=
          relied_driveRows hG hR (hI.picked b hb) hd
        refine
          { relied := ?_
            reading := fun _ it hit => by
              rw [show s.inflight = [] from hin] at hit
              cases hit
            picked := fun _ h => by cases h
            flight := by
              rw [show s.inflight = [] from hin]
              exact flight_nil _
            apart := fun h => absurd rfl h
            off := ?_ }
        · refine relied_sure hin (?_ : Relied E.text _ s.Sure db)
          cases failed with
          | true =>
            have e : G s.hasNew (Sys.route { s with
                db := db, state := .failed, lastPk := mark, batch := none }) =
                G true .old := by
              rw [hnew.1]
              simp [Sys.route]
            exact e ▸ hD.mono (hG.failed _)
          | false =>
            have e : G s.hasNew (Sys.route { s with
                db := db, lastPk := mark, batch := none }) = G true .new := by
              rw [hnew.1]
              simp [Sys.route, hrun]
            exact e ▸ hD
        · intro he
          have := hI.off he
          rw [hroute] at this
          cases this

theorem Inv.failBatch (hI : Inv E G s) (hG : Upheld E G) {violation : Bool}
    (hb : s.batch ≠ none) : Inv E G { s with
      state := if violation && decide (s.state = .running) then .failed else s.state
      batch := none } := by
  split
  · have hin : s.inflight = [] := hI.apart hb
    have hroute : Sys.route { s with state := .failed, batch := none } = .old := by
      simp [Sys.route]
    refine
      { relied := ?_
        reading := fun _ it hit => by
          rw [show s.inflight = [] from hin] at hit
          cases hit
        picked := fun _ h => by cases h
        flight := hI.flight
        apart := fun h => absurd rfl h
        off := fun _ => hroute }
    rw [hroute]
    exact relied_sure (s := { s with state := .failed, batch := none }) hin (hI.fails hG)
  · exact hI.forget

/-! ## 5. Quarantines and row writes -/

/-- The condition on the rest: no job is deleted by a quarantine, and no statement runs while the
    entry is disabled. -/
def Sys.careful (s : Sys K δ T V) : Act K δ → Bool
  | .writer (.exec _ _) => s.enabled
  | .quarantine => s.db.queue.jobs.isEmpty
  | _ => true

/-- The entry is quarantined with an empty queue, or nothing is owed to rows once the migration has
    failed. -/
theorem Inv.quarantine (hI : Inv E G s) (hG : Upheld E G)
    (hc : (∀ h r, G h .old r) ∨ s.careful (.quarantine : Act K δ) = true)
    (h : quarantine s = some s') : Inv E G s' := by
  unfold Migrating.quarantine at h
  split at h
  · cases h
  · cases h
    have hk : Queue.Keeps (fun _ => True) s.db.queue (s.db.queue.deleteJobs fun _ => true) :=
      Queue.keeps_deleteJobs _ fun _ _ _ => trivial
    have hg : Queue.Grows s.db.queue (s.db.queue.deleteJobs fun _ => true) := hk.grows
    set s₁ : Sys K δ T V := { s with
      db := { s.db with queue := s.db.queue.deleteJobs fun _ => true }
      enabled := false
      state := if s.state = .running ∨ s.state = .awaitingFinalize then .failed else s.state
      inflight := []
      batch := none } with hs₁
    have hroute : s₁.route = .old := by
      simp only [hs₁, Sys.route]
      split
      · simp
      · rfl
    refine
      { relied := ?_
        reading := fun _ it hit => by cases hit
        picked := fun _ h => by cases h
        flight := flight_nil _
        apart := fun h => absurd rfl h
        off := fun _ => hroute }
    rw [hroute]
    rcases hc with hall | hempty
    · exact relied_of_all (hall _) (fun x t ht => (hI.relied.drops x t ht).grows hg)
        (hI.relied.locks.mono fun x t ht => ht)
        ⟨hI.relied.stamped.rows, hI.relied.stamped.started, hI.relied.stamped.mine⟩
    · have hnil : s.db.queue.jobs = [] := by simpa [Sys.careful] using hempty
      refine (hI.fails hG).requeued ⟨rfl, rfl, rfl, hg, fun _ _ _ k h => ?_⟩
      -- without jobs, only dead ones stand
      rcases h with hd | ⟨j, hj, -⟩
      · exact .inl hd
      · rw [hnil] at hj
        cases hj

/-- Writers change at most one key per statement. -/
def Act.oneKey : Act K δ → Bool
  | .writer (.exec _ st) => Managed.oneKey st
  | _ => true

theorem fire_disabled [BEq δ] (E : Entry δ T V) (h : s.enabled = false)
    (view : Table K (Row δ (Cols V))) (st : Stmt K δ) (hst : st ≠ .truncate) :
    (s.triggers E).fire view st = [] := by
  rw [Sys.triggers, h]
  cases st with
  | truncate => exact absurd rfl hst
  | insert | update | delete => rfl

/-- A step of a writer. -/
theorem Inv.writer [BEq δ] [DecidableEq T] (hI : Inv E G s) (hG : Upheld E G) {w : WriterAct K δ}
    {db' : Db K δ (Cols V)} (hone : (Act.writer w).oneKey = true)
    (hmind : s.minding E fine (.writer w) = true)
    (hc : (∀ h r, G h .old r) ∨ s.careful (.writer w) = true)
    (hw : s.db.writer (s.triggers E) w = some db') : Inv E G { s with db := db' } := by
  have hF : Flight db'.queue s.inflight := hI.flight.grows (grows_writer hw) fun _ h => h
  have hpend : ∀ q, Queue.Grows s.db.queue q → ∀ j ∈ q.jobs, j.claimed = false → s.Sure j.id :=
    hI.pending fun _ h => h
  have honest : ∀ x st, w = .exec x st → Managed.oneKey st = true := by
    intro x st e
    subst e
    exact hone
  have hren : ∀ x st t, w = .exec x st → s.db.txns.get x = some t → ∀ chs, st = .update chs →
      Rendered E.text (images (t.table x s.db.rows) chs) := by
    intro x st t e ht
    subst e
    exact rendered_of_alike hmind ht
  have hT := rowTriggers_managed (K := K) E.text E.mode
  refine
    { relied := ?_
      reading := fun he it hit v hv => (hI.reading he it hit v hv).writer hI.relied.stamped hw
      picked := fun b hb p hp => (hI.picked b hb p hp).writer hI.relied.stamped hw
      flight := hF
      apart := hI.apart
      off := hI.off }
  cases hen : s.enabled with
  | true =>
    rw [Sys.triggers, hen, if_pos rfl] at hw
    exact hI.relied.writer (hG.owed _ _) hT honest hren hpend hw
  | false =>
    rcases hc with hall | hcare
    · refine hI.relied.writer_untriggered (fun r => ?_) (fire_disabled E hen) hw
      rw [hI.off hen]
      exact hall _ r
    · -- no statement runs, so it does not matter which triggers there are
      have hw' : s.db.writer (Managed.triggers E.text false E.mode) w = some db' := by
        cases w with
        | begin => exact hw
        | exec x st =>
          rw [show s.enabled = true from hcare] at hen
          cases hen
        | commit | rollback => exact hw
      exact hI.relied.writer (hG.owed _ _) hT honest hren hpend hw'

/-! ## 6. Every step -/

omit [LinearOrder K] in
theorem unwritten_wrote (h : s.unwritten = true) (x : Nat) (t : Txn K δ (Cols V))
    (ht : s.db.txns.get x = some t) : t.wrote = false := by
  simp only [Sys.unwritten, Bool.not_eq_true'] at h
  exact Table.any_eq_false_iff.mp h x t ht

/-- **Every step but for the end of the migration keeps the invariant.** -/
theorem Inv.step [BEq δ] [DecidableEq T] (hI : Inv E G s) (hG : Upheld E G)
    (hfine : ∀ h ρ r, fine r = true → G h ρ r) {a : Act K δ}
    (hone : a.oneKey = true) (hmind : s.minding E fine a = true)
    (hcare : (∀ h r, G h .old r) ∨ s.careful a = true) (h : s.step E a = some s')
    (hlive : s'.state ≠ .done ∧ s'.state ≠ .aborted) : Inv E G s' := by
  simp only [Sys.step] at h
  split at h
  · cases h
  cases a with
  | writer w =>
    obtain ⟨db', hw, rfl⟩ := map_eq_some_iff.mp h
    exact hI.writer hG hone hmind hcare hw
  | expire ids =>
    obtain ⟨db', hdb, rfl⟩ := map_eq_some_iff.mp h
    refine expireStale_invariant (I := fun db => Inv E G { s with db := db })
      (fun db id hI hr => ?_) hI hdb
    exact hI.released hr fun _ h => h
  | claim ids => exact hI.claim hfine hmind h
  | writeBack answers =>
    simp only [ite_none_left_eq_some] at h
    exact Inv.writeBack hG hI h.2
  | release id =>
    obtain ⟨⟨db', items⟩, hone, rfl⟩ := map_eq_some_iff.mp h
    obtain ⟨hr, rfl, hin⟩ := releaseOne_some hone
    exact hI.released hr hin
  | crash =>
    cases h
    exact hI.lost.forget
  | readBatch => exact hI.readBatch h
  | writeBatch outcomes => exact hI.writeBatch hG h
  | failBatch violation =>
    simp only [ite_none_left_eq_some] at h
    obtain ⟨hb, h⟩ := h
    cases h
    exact hI.failBatch hG (by simpa using hb)
  | dropColumn =>
    simp only [ite_none_right_eq_some] at h
    obtain ⟨hfree, h⟩ := h
    cases h
    exact hI.withoutNew hG (unwritten_wrote hfree)
  | quarantine => exact hI.quarantine hG hcare h
  | abort =>
    simp only [abort, ite_none_right_eq_some] at h
    obtain ⟨-, h⟩ := h
    cases h
    exact absurd rfl hlive.2
  | finalize =>
    simp only [finalize, ite_none_right_eq_some] at h
    obtain ⟨-, h⟩ := h
    cases h
    exact absurd rfl hlive.1

end Steps

end Postvec.Managed.Migrating
