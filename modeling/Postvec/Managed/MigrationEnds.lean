import Postvec.Managed.MigrationSpec

/-!
# A migration of a managed column-mode entry: how it ends

`migration_finalize` makes the new column the vector column. Nothing stale is left in it
(`finalized_current`), because

* a job writes the vector of the text its version belongs to;
* the driver writes only where the column is still NULL, and converts an old vector only while that
  is the one of the row's text, or a job of the key is still to come;
* the finalize waits for the writers and finds no job left.

The exception is the job of an absent key (`Managed/ColumnSync.lean`), which ends unchecked although
an open transaction relies on it: a row that is moved onto the key keeps the vectors of the text it
had (`stale_vector_finalized`).
-/

namespace Postvec.Managed.Migrating

open Machine

variable {K δ T V : Type*}

/-! ## 1. The start -/

/-- The state `migrate()` leaves: it has waited for the writers, and added a blank column. What the
    leader has in memory was claimed before. -/
structure Sys.Begun (s : Sys K δ T V) : Prop where
  idle : ∀ x, s.db.txns.get x = none
  enabled : s.enabled = true
  state : s.state = .running
  hasNew : s.hasNew = true
  lastPk : s.lastPk = none
  expected : s.expected = .old
  batch : s.batch = none
  flight : Flight s.db.queue s.inflight
  versions : ∀ k r, s.db.rows.get k = some r → r.xmin < s.db.nextXid
  blank : ∀ k r, s.db.rows.get k = some r → r.cols.new = none

variable {E : Entry δ T V} {G : Bool → Route → Row δ (Cols V) → Prop} {s s' : Sys K δ T V}

theorem Sys.Begun.route (h : s.Begun) : s.route = .new := by
  simp [Sys.route, h.state]

/-- What every row has, or has a job for, at the start. -/
theorem Sys.Begun.inv (h : s.Begun)
    (hrows : ∀ k r, s.db.rows.get k = some r →
      G true .new r ∨ s.db.queue.Dead k ∨ s.db.queue.Live k) : Inv E G s where
  relied := by
    refine relied_of_idle h.idle h.versions fun k r hr => ?_
    rw [h.hasNew, h.route]
    refine (hrows k r hr).imp_right fun hk => (stands_nil_iff fun i => .inl ?_).mpr hk
    rw [h.expected, h.route]
    exact fun e => by cases e
  reading := by
    intro he
    rw [h.expected, h.route] at he
    cases he
  picked := fun b hb => by
    rw [h.batch] at hb
    cases hb
  flight := h.flight
  apart := fun hb => absurd h.batch hb
  off := fun he => by
    rw [h.enabled] at he
    cases he

variable [LinearOrder K] [BEq δ]

theorem step_live {a : Act K δ} (h : s.step E a = some s') :
    s.state ≠ .done ∧ s.state ≠ .aborted := by
  simp only [Sys.step] at h
  split at h
  · cases h
  · rename_i hn
    exact not_or.mp hn

/-- **Before the end.** In every run that keeps to the conditions, the invariant holds in every
    state from which another step is possible. -/
theorem Sys.Begun.reach_inv [DecidableEq T] {s₀ : Sys K δ T V} {C : Sys K δ T V → Act K δ → Prop}
    {fine : Row δ (Cols V) → Bool} (hG : Upheld E G) (hfine : ∀ h ρ r, fine r = true → G h ρ r)
    (hC : ∀ s a, C s a → a.oneKey = true ∧ s.minding E fine a = true ∧
      ((∀ h r, G h .old r) ∨ s.careful a = true))
    (h₀ : Inv E G s₀) (h : Reach (Sys.step E) C s₀ s)
    (hlive : s.state ≠ .done ∧ s.state ≠ .aborted) : Inv E G s := by
  induction h with
  | start => exact h₀
  | next a _ hCa hs ih =>
    obtain ⟨hone, hmind, hcare⟩ := hC _ a hCa
    exact (ih (step_live hs)).step hG hfine hone hmind hcare hs hlive

/-! ## 2. Finalizing -/

section

omit [LinearOrder K] [BEq δ]

/-- The old vector is the one of the row's text, if there is one. -/
def OldCurrent (E : Entry δ T V) (r : Row δ (Cols V)) : Prop :=
  ∀ v, r.cols.old = some v → ∃ t, E.text r.doc = some t ∧ v = E.oldModel.embed t

/-- The new vector is the new model's of the row's text, or converted from the old model's. -/
def NewCurrent (E : Entry δ T V) (r : Row δ (Cols V)) : Prop :=
  ∀ v, r.cols.new = some v → ∃ t, E.text r.doc = some t ∧
    (v = E.newModel.embed t ∨ v = E.convert (E.oldModel.embed t))

/-- What a migration owes a row: while the column is there and written, its vector is current, and a
    row still without one has no outdated old vector. -/
def Current (E : Entry δ T V) (hasNew : Bool) (ρ : Route) (r : Row δ (Cols V)) : Prop :=
  hasNew = true → ρ = .new → NewCurrent E r ∧ (r.cols.new = none → OldCurrent E r)

theorem upheld_current (E : Entry δ T V) : Upheld E (Current E) where
  owed := by
    intro h ρ
    refine ⟨fun r r' hd hc hr => ?_, fun r _ hc _ _ => ⟨fun v hv => ?_, fun _ v hv => ?_⟩⟩
    · simp only [Current, NewCurrent, OldCurrent, hd, hc]
      exact hr
    · rw [hc] at hv
      cases hv
    · rw [hc] at hv
      cases hv
  embedded := by
    rintro h ρ r - rfl
    cases ht : E.text r.doc with
    | none => exact ⟨fun v hv => (by cases hv), fun _ v hv => by cases hv⟩
    | some t =>
      refine ⟨fun v hv => ⟨t, ht, .inl ?_⟩, fun hn => by cases hn⟩
      cases hv
      rfl
  driven := by
    intro r x hr hnone hx _ _
    refine ⟨fun v hv => ?_, fun hn => by cases hn⟩
    have hold := (hr rfl rfl).2 hnone
    have e : E.answer x = v := Option.some.inj hv
    cases x with
    | inl t => exact ⟨t, hx, .inl e.symm⟩
    | inr o =>
      obtain ⟨t, ht, rfl⟩ := hold o hx
      exact ⟨t, ht, .inr e.symm⟩
  dropped := fun _ _ _ _ hf => by cases hf
  failed := fun _ _ _ _ hρ => by cases hρ

/-- A row without vectors. -/
def bare (r : Row δ (Cols V)) : Bool := r.cols.old.isNone && r.cols.new.isNone

theorem current_of_bare {h : Bool} {ρ : Route} {r : Row δ (Cols V)} (hb : bare r = true) :
    Current E h ρ r := by
  simp only [bare, Bool.and_eq_true, Option.isNone_iff_eq_none] at hb
  refine fun _ _ => ⟨fun v hv => ?_, fun _ v hv => ?_⟩
  · rw [hb.2] at hv
    cases hv
  · rw [hb.1] at hv
    cases hv

end

/-- **Nothing stale is finalized.** From `migrate()` on a table each of whose rows has a current old
    vector, none, or a job: in every run of writers that change at most one key per statement, embed
    steps, driver batches, errors, dropped columns and quarantines, whose claims and `UPDATE`s meet
    the condition, in the state `migration_finalize` commits every vector of the new column is
    current, unless a dead job of its key says otherwise. -/
theorem finalized_current [DecidableEq T] (E : Entry δ T V) (s₀ s s' : Sys K δ T V)
    (h₀ : s₀.Begun) (hsynced : ∀ k r, s₀.db.rows.get k = some r →
      OldCurrent E r ∨ s₀.db.queue.Dead k ∨ s₀.db.queue.Live k)
    (h : Reach (Sys.step E) (fun s a => a.oneKey = true ∧ s.minding E bare a = true) s₀ s)
    (hfin : s.step E .finalize = some s') (k : K) (r : Row δ (Cols V))
    (hr : s'.db.rows.get k = some r) (hdead : ¬ s'.db.queue.Dead k) :
    (∀ v, r.cols.new = some v → ∃ t, E.text r.doc = some t ∧
      (v = E.newModel.embed t ∨ v = E.convert (E.oldModel.embed t))) ∧
    (E.text r.doc = none → r.cols.new = none) := by
  have hstart : Inv E (Current E) s₀ := by
    refine h₀.inv fun k r hr => (hsynced k r hr).imp_left fun hold _ _ =>
      ⟨fun v hv => ?_, fun _ => hold⟩
    rw [h₀.blank k r hr] at hv
    cases hv
  have hI : Inv E (Current E) s :=
    Sys.Begun.reach_inv (upheld_current E) (fun _ _ _ => current_of_bare)
      (fun s a hc => ⟨hc.1, hc.2, .inl fun _ _ _ hρ => by cases hρ⟩) hstart h (step_live hfin)
  -- the finalize has found the column there, and no job
  simp only [Sys.step, finalize] at hfin
  split at hfin
  · cases hfin
  simp only [Option.ite_none_right_eq_some] at hfin
  obtain ⟨⟨-, hstate, hnew, hjobs⟩, e⟩ := hfin
  cases e
  have hroute : s.route = .new := by simp [Sys.route, hstate]
  have hcur : NewCurrent E r := by
    rcases hI.relied.settled k r hr with hc | ⟨d, hd, hk, -⟩ | ⟨j, hj, -⟩
    · exact (hc hnew hroute).1
    · exact absurd ⟨d, hd, hk⟩ hdead
    · rw [hjobs] at hj
      cases hj
  refine ⟨hcur, fun ht => ?_⟩
  cases hv : r.cols.new with
  | none => rfl
  | some v =>
    obtain ⟨t, htext, -⟩ := hcur v hv
    rw [ht] at htext
    cases htext

/-! ## 3. Two runs -/

section Runs

/-- An entry whose document is its text; the old model returns it, the new one adds 100, and so does
    the conversion. -/
def plainEntry (mode : TriggerMode) : Entry (Option Nat) Nat Nat where
  text := id
  bytes := fun _ => 1
  vectorBytes := fun _ => 1
  batchSize := 10
  mode := mode
  oldModel := ⟨id, fun _ => 1, 1⟩
  newModel := ⟨fun t => 100 + t, fun _ => 1, 1⟩
  convert := fun v => 100 + v
  reembed := false

/-- A migration that has just begun on an empty table. -/
def Sys.initial : Sys Nat (Option Nat) Nat Nat where
  db := ⟨.empty, .empty, .empty, 0⟩
  enabled := true
  state := .running
  hasNew := true
  lastPk := none
  expected := .old
  inflight := []
  batch := none

theorem Sys.initial_begun : Sys.initial.Begun where
  idle := fun _ => rfl
  enabled := rfl
  state := rfl
  hasNew := rfl
  lastPk := rfl
  expected := rfl
  batch := rfl
  flight := flight_nil _
  versions := fun k r hr => by cases hr
  blank := fun k r hr => by cases hr

/-- Rows 1 and 2 are inserted and row 1 is embedded. The job of row 2 is claimed, the row deleted,
    and the job released. Row 1 is moved onto key 2 with another text, in an open transaction; the
    job of key 2 is claimed, the transaction commits, and the job is finished. -/
def movedRun : List (Act Nat (Option Nat)) :=
  [.writer .begin, .writer (.exec 0 (.insert [(1, some 10), (2, some 20)])), .writer (.commit 0),
    .claim [0], .writeBack [⟨.vector, false⟩], .claim [1],
    .writer .begin, .writer (.exec 2 (.delete [2])), .writer (.commit 2),
    .writeBack [⟨.vector, false⟩],
    .writer .begin, .writer (.exec 3 (.update [⟨1, 2, some 30⟩])), .claim [2],
    .writer (.commit 3), .writeBack [⟨.vector, false⟩], .readBatch]

/-- **A stale vector is finalized.** In either trigger mode a run of statements that change at most
    one key ends in a `migration_finalize` which commits row 2 with the text 30, the new model's
    vector of the text 10, and no job, live or dead. -/
theorem stale_vector_finalized :
    (∃ s s', Reach (Sys.step (plainEntry .statement)) (fun _ a => a.oneKey = true) Sys.initial s ∧
      s.step (plainEntry .statement) .finalize = some s' ∧
      s'.db.rows.get 2 = some ⟨some 30, ⟨none, some 110⟩, 3⟩ ∧ ¬ s'.db.queue.Dead 2) ∧
    ∃ s s', Reach (Sys.step (plainEntry .row)) (fun _ a => a.oneKey = true) Sys.initial s ∧
      s.step (plainEntry .row) .finalize = some s' ∧
      s'.db.rows.get 2 = some ⟨some 30, ⟨none, some 110⟩, 3⟩ ∧ ¬ s'.db.queue.Dead 2 := by
  let p (mode : TriggerMode) : Sys Nat (Option Nat) Nat Nat → Bool := fun s =>
    (s.step (plainEntry mode) .finalize).any fun s' =>
      decide (s'.db.rows.get 2 = some ⟨some 30, ⟨none, some 110⟩, 3⟩ ∧ ¬ s'.db.queue.Dead 2)
  have hs : (runWhile (Sys.step (plainEntry .statement)) (fun _ a => a.oneKey = true) Sys.initial
      movedRun).any (p .statement) = true := by decide +kernel
  have hr : (runWhile (Sys.step (plainEntry .row)) (fun _ a => a.oneKey = true) Sys.initial
      movedRun).any (p .row) = true := by decide +kernel
  refine ⟨?_, ?_⟩
  · obtain ⟨s, hreach, hp⟩ := Reach.exists_of_runWhile hs
    obtain ⟨s', hs', hp⟩ := Option.any_eq_true _ _ |>.mp hp
    exact ⟨s, s', hreach, hs', of_decide_eq_true hp⟩
  · obtain ⟨s, hreach, hp⟩ := Reach.exists_of_runWhile hr
    obtain ⟨s', hs', hp⟩ := Option.any_eq_true _ _ |>.mp hp
    exact ⟨s, s', hreach, hs', of_decide_eq_true hp⟩

/-- The same with the claim after the commit. -/
def settledRun : List (Act Nat (Option Nat)) :=
  [.writer .begin, .writer (.exec 0 (.insert [(1, some 10), (2, some 20)])), .writer (.commit 0),
    .claim [0], .writeBack [⟨.vector, false⟩], .claim [1],
    .writer .begin, .writer (.exec 2 (.delete [2])), .writer (.commit 2),
    .writeBack [⟨.vector, false⟩],
    .writer .begin, .writer (.exec 3 (.update [⟨1, 2, some 30⟩])), .writer (.commit 3),
    .claim [2], .writeBack [⟨.vector, false⟩], .readBatch]

/-- A run that meets the conditions: the vector finalized is the one of the row's text. -/
theorem settledRun_current :
    ∃ s s', Reach (Sys.step (plainEntry .row))
        (fun s a => a.oneKey = true ∧ s.minding (plainEntry .row) bare a = true) Sys.initial s ∧
      s.step (plainEntry .row) .finalize = some s' ∧
      ∃ r, s'.db.rows.get 2 = some r ∧ r.cols.new ≠ none ∧
        (∀ v, r.cols.new = some v → ∃ t, (plainEntry .row).text r.doc = some t ∧
          (v = (plainEntry .row).newModel.embed t ∨
            v = (plainEntry .row).convert ((plainEntry .row).oldModel.embed t))) ∧
        ((plainEntry .row).text r.doc = none → r.cols.new = none) := by
  let p : Sys Nat (Option Nat) Nat Nat → Bool := fun s =>
    (s.step (plainEntry .row) .finalize).any fun s' =>
      decide (((s'.db.rows.get 2).bind fun r => r.cols.new) = some 130 ∧ s'.db.queue.dead = [])
  have h : (runWhile (Sys.step (plainEntry .row))
      (fun s a => a.oneKey = true ∧ s.minding (plainEntry .row) bare a = true) Sys.initial
        settledRun).any p =
      true := by decide +kernel
  obtain ⟨s, hreach, hp⟩ := Reach.exists_of_runWhile h
  obtain ⟨s', hs', hp⟩ := Option.any_eq_true _ _ |>.mp hp
  obtain ⟨hrow, hdead⟩ := of_decide_eq_true hp
  obtain ⟨r, hr, hv⟩ := Option.bind_eq_some_iff.mp hrow
  refine ⟨s, s', hreach, hs', r, hr, by rw [hv]; exact Option.some_ne_none _, ?_⟩
  refine finalized_current (plainEntry .row) _ s s' Sys.initial_begun
    (fun k r hr => by cases hr) hreach hs' 2 r hr ?_
  rintro ⟨d, hd, -⟩
  rw [hdead] at hd
  cases hd

end Runs

end Postvec.Managed.Migrating
