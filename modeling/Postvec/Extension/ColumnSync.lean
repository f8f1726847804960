import Postvec.Extension.ColumnSpec

/-!
# The extension's column mode: when sync converges

Convergence: with no writer open, a row whose key has no pending, claimed or dead job has the
vector of its current text, and NULL when it has none. It does not hold in every run, because a job
is claimed and read while a transaction that was coalesced into it is still open, and because a row
without a source is inserted without a job:

* `stale_vector_reachable`: an update coalesces into a pending job, the job is claimed and read, the
  update commits, and the write-back leaves the vector of the old text with no job behind;
* `columnSync_converges`: in every run whose steps are `careful`, it holds in every state reached.

What the invariant `ColumnInv` says of a row that no job stands for is a parameter (`good`), and so
are the columns and the routing: during a migration it is kept by the same steps
(`Extension/Migration.lean`).
-/

namespace Postvec

open Machine List Option

/-! ## 1. The invariant -/

section Invariant

variable {K δ T V P : Type*}

/-- What may be said of a row that no job stands for: it is about the text and the columns, the
    write-back of the row's text makes it so, and a new row without a text is so. -/
structure Settles [Inhabited P] (E : ColumnEntry δ T V) (put : Option V → P → P)
    (good : K → Row δ P → Prop) : Prop where
  congr : ∀ {k r r'}, good k r → E.text r'.doc = E.text r.doc → r'.cols = r.cols → good k r'
  put : ∀ k (r : Row δ P) x,
    good k { r with cols := put ((E.text r.doc).map E.embed) r.cols, xmin := x }
  blank : ∀ k d x, E.text d = none → good k ⟨d, default, x⟩

/-- The transaction has updated the row in place, and its rendered text is the committed one. -/
def SameText (E : ColumnEntry δ T V) (rows : Table K (Row δ P)) (t : Txn K δ P) (k : K) : Prop :=
  ∃ d r, t.mine.get k = some (.updated d) ∧ rows.get k = some r ∧ E.text d = E.text r.doc

/-- What an open transaction's row `r` under `k` can rely on once it is committed: a dead job, a
    job of the transaction, a job not in flight that the transaction has not deleted, the committed
    row it only touched, or that it is new and without a text, and no text is in flight for it. -/
def Covered [Inhabited P] (E : ColumnEntry δ T V) (s : ColumnSys K δ T P) (t : Txn K δ P) (k : K)
    (r : Row δ P) : Prop :=
  s.db.queue.Dead k ∨ rowSlot k ∈ t.own ∨
  (∃ j ∈ s.db.queue.jobs, j.slot.pk = k ∧ s.Outside j.id ∧ j.id ∉ t.dropped) ∨
  SameText E s.db.rows t k ∨
  (E.text r.doc = none ∧ r.cols = default ∧ ∀ it ∈ s.inflight, it.pk = k → it.text = none)

/-- The invariant of column-mode sync. -/
structure ColumnInv [Inhabited P] (E : ColumnEntry δ T V) (good : K → Row δ P → Prop)
    (s : ColumnSys K δ T P) : Prop where
  /-- a committed row is settled, or a job stands for it -/
  settled : ∀ k r, s.db.rows.get k = some r → good k r ∨ s.db.queue.Dead k ∨ s.db.queue.Live k
  /-- an item in flight carries the text of the committed row, or another job stands for it -/
  reading : ∀ it ∈ s.inflight, ∀ r, s.db.rows.get it.pk = some r →
    E.text r.doc = it.text ∨ s.Waiting it.pk
  /-- the rows open transactions are about to commit -/
  covered : ∀ x t, s.db.txns.get x = some t → ∀ k p, t.mine.get k = some p →
    ∀ r, (t.table x s.db.rows).get k = some r → Covered E s t k r
  locks : s.db.Locks
  /-- only `TRUNCATE` deletes jobs, and nothing deletes dead jobs -/
  dropped : ∀ x t, s.db.txns.get x = some t →
    t.droppedDead = [] ∧ (t.trunc = false → t.dropped = [])
  flight : s.Flight

variable {E : ColumnEntry δ T V} {s s' : ColumnSys K δ T P} {good : K → Row δ P → Prop}
  {put : Option V → P → P} {t : Txn K δ P} {x : Nat} {k : K} {r : Row δ P}

/-- The rows a worker's transaction leaves: the documents are those that were there, and a row an
    open transaction has updated in place is not written. -/
structure Rewritten (s : ColumnSys K δ T P) (rows : Table K (Row δ P)) : Prop where
  open_ : s.db.truncated = false
  back : ∀ k r', rows.get k = some r' → ∃ r, s.db.rows.get k = some r ∧ r'.doc = r.doc ∧
    (r' = r ∨ s.db.rowLocked k = false)

/-- An open transaction sees the rows it holds as before. -/
theorem Rewritten.held {rows : Table K (Row δ P)} (h : Rewritten s rows) {p : Priv δ P}
    (hx : s.db.txns.get x = some t) (hk : t.mine.get k = some p)
    (hr : (t.table x rows).get k = some r) : (t.table x s.db.rows).get k = some r ∧
      (SameText E s.db.rows t k → SameText E rows t k) := by
  have htr : t.trunc = false := Table.any_eq_false_iff.mp h.open_ x t hx
  rw [table_get_held hk, htr] at hr ⊢
  cases p with
  | replaced row =>
    refine ⟨hr, fun hs => ?_⟩
    obtain ⟨d, r, hd, -⟩ := hs
    rw [hk] at hd
    cases hd
  | updated d =>
    obtain ⟨r₁, hr₁, e₁⟩ := map_eq_some_iff.mp hr
    have hr : s.db.rows.get k = some r₁ := by
      obtain ⟨r₀, hr₀, -, rfl | hl⟩ := h.back k r₁ hr₁
      · exact hr₀
      · have hlock : s.db.rowLocked k = true := by
          simp only [Db.rowLocked, hr₀, isSome_some, Bool.true_and]
          exact Table.any_iff.mpr ⟨x, t, hx, by rw [hk]⟩
        rw [hl] at hlock
        cases hlock
    refine ⟨map_eq_some_iff.mpr ⟨r₁, hr, e₁⟩, fun hs => ?_⟩
    obtain ⟨d', r', hd', hr', ht'⟩ := hs
    have hrr : some r₁ = some r' := hr.symm.trans hr'
    cases hrr
    exact ⟨d', r₁, hd', hr₁, ht'⟩

variable [Inhabited P]

/-- With no truncating transaction open, no open transaction has deleted a job. -/
theorem ColumnInv.dropped_nil (hI : ColumnInv E good s) (ht : s.db.truncated = false)
    (hx : s.db.txns.get x = some t) : t.dropped = [] :=
  (hI.dropped x t hx).2 (Table.any_eq_false_iff.mp ht x t hx)

/-- Only what is said of committed rows changes. -/
theorem ColumnInv.rewrite {good' : K → Row δ P → Prop} {rows : Table K (Row δ P)} {n : Nat}
    (hI : ColumnInv E good s) (h : Rewritten s rows)
    (hg : ∀ k r r', s.db.rows.get k = some r → rows.get k = some r' → good k r → good' k r') :
    ColumnInv E good' { s with db := { s.db with rows, nextXid := n } } where
  settled := by
    intro k r' hr'
    obtain ⟨r, hr, -⟩ := h.back k r' hr'
    exact (hI.settled k r hr).imp_left (hg k r r' hr hr')
  reading := by
    intro it hit r' hr'
    obtain ⟨r, hr, hd, -⟩ := h.back _ r' hr'
    rw [hd]
    exact hI.reading it hit r hr
  covered := by
    intro x t hx k p hk r' hr'
    obtain ⟨hr, hs⟩ := h.held (E := E) hx hk hr'
    rcases hI.covered x t hx k p hk r' hr with hc | hc | hc | hc | hc
    · exact .inl hc
    · exact .inr (.inl hc)
    · exact .inr (.inr (.inl hc))
    · exact .inr (.inr (.inr (.inl (hs hc))))
    · exact .inr (.inr (.inr (.inr hc)))
  locks := ⟨hI.locks.apart, hI.locks.alone⟩
  dropped := hI.dropped
  flight := ⟨hI.flight.claimed, hI.flight.issued⟩

/-- **Worker steps** that end items in flight keep the invariant. -/
theorem ColumnInv.ended (hI : ColumnInv E good s) (hG : Settles E put good)
    (h : Ended E put s s') : ColumnInv E good s' := by
  have hw : Rewritten s s'.db.rows := by
    refine ⟨h.open_, fun k r' hr' => ?_⟩
    rcases h.rows k r' hr' with ⟨hr, -⟩ | ⟨hl, _, -, -, r, x, hr, rfl⟩
    · exact ⟨r', hr, rfl, .inl rfl⟩
    · exact ⟨r, hr, rfl, .inr hl⟩
  exact
    { settled := by
        intro k r' hr'
        rcases h.rows k r' hr' with ⟨hr, hlive⟩ | ⟨-, it, hit, rfl, r, x, hr, rfl⟩
        · exact (hI.settled k r' hr).imp_right hlive
        · rcases hI.reading it hit r hr with ht | hw
          · exact .inl (ht ▸ hG.put _ r x)
          · exact .inr (h.waiting _ hw).live
      reading := by
        intro it hit r' hr'
        obtain ⟨r, hr, hd, -⟩ := hw.back _ r' hr'
        rw [hd]
        exact (hI.reading it (h.inflight it hit) r hr).imp_right (h.waiting _)
      covered := by
        intro x t hx k p hk r' hr'
        rw [h.txns] at hx
        have hdrop := hI.dropped_nil h.open_ hx
        obtain ⟨hr, hsame⟩ := hw.held (E := E) hx hk hr'
        have waits : s.Waiting k → Covered E s' t k r' := by
          intro hw
          rcases h.waiting k hw with hd | ⟨j, hj, hjk, ho⟩
          · exact .inl hd
          · exact .inr (.inr (.inl ⟨j, hj, hjk, ho, by simp [hdrop]⟩))
        rcases hI.covered x t hx k p hk r' hr with hd | ho | ⟨j, hj, hjk, ho, -⟩ | hs |
          ⟨hn, hb, hit⟩
        · exact waits (.inl hd)
        · exact .inr (.inl ho)
        · exact waits (.inr ⟨j, hj, hjk, ho⟩)
        · exact .inr (.inr (.inr (.inl (hsame hs))))
        · exact .inr (.inr (.inr (.inr ⟨hn, hb, fun it hi => hit it (h.inflight it hi)⟩)))
      locks := hI.locks.mono fun x t hx => h.txns ▸ hx
      dropped := by rw [h.txns]; exact hI.dropped
      flight := h.flight }

variable [DecidableEq K]

/-! ## 2. Worker steps -/

/-- The transaction has a row under `k` that a job claimed now would not cover: it has no job of
    its own for it, and has not merely updated the row in place without changing its text. -/
def adrift [DecidableEq T] (E : ColumnEntry δ T V) (rows : Table K (Row δ P)) (t : Txn K δ P)
    (k : K) : Bool :=
  !t.own.contains (rowSlot k) &&
    match t.mine.get k with
    | none => false
    | some (.replaced row) => row.isSome
    | some (.updated d) =>
      match rows.get k with
      | none => false
      | some r => decide (E.text d ≠ E.text r.doc)

/-- The condition on steps: no job is claimed for a key under which an open transaction is adrift,
    no row without a source is inserted under a key whose text is in flight, and no `UPDATE` changes
    the text of a row whose columns are not distinct from what they were. -/
def ColumnSys.careful [BEq δ] [DecidableEq T] (E : ColumnEntry δ T V) (s : ColumnSys K δ T P) :
    ColumnAct K δ → Bool
  | .claimAndRead ids =>
    s.db.queue.jobs.all fun j => !ids.contains j.id ||
      !s.db.txns.any fun _ t => adrift E s.db.rows t j.slot.pk
  | .writer (.exec _ (.insert rows)) =>
    rows.all fun r => (E.text r.2).isSome ||
      s.inflight.all fun it => decide (it.pk ≠ r.1) || it.text.isNone
  | .writer w => s.db.alike E.text w
  | _ => true

/-- A claim. -/
theorem ColumnInv.claim [BEq δ] [DecidableEq T] (hI : ColumnInv E good s) {ids : List Nat}
    (hc : s.careful E (.claimAndRead ids) = true) (h : claimAndRead E s ids = some s') :
    ColumnInv E good s' := by
  have hS := claimAndRead_spec h
  exact
    { settled := by
        intro k r hr
        rw [hS.rows] at hr
        exact (hI.settled k r hr).imp_right hS.live
      reading := by
        intro it hit r hr
        rw [hS.rows] at hr
        rw [(hS.items it hit).2.1, hr]
        exact .inl rfl
      covered := by
        intro x t hx k p hk r hr
        rw [hS.txns] at hx
        rw [hS.rows] at hr
        have hdrop := hI.dropped_nil hS.open_ hx
        by_cases hfl : ∃ it ∈ s'.inflight, it.pk = k
        · -- the key is in flight now: the condition says what the transaction relies on
          obtain ⟨it, hit, rfl⟩ := hfl
          obtain ⟨hid, -, j, hj, hje, hjk⟩ := hS.items it hit
          simp only [ColumnSys.careful, List.all_eq_true] at hc
          have hcj := hc j hj
          rw [hje, hjk, contains_iff_mem.mpr hid] at hcj
          have ha := Table.any_eq_false_iff.mp (by simpa using hcj) x t hx
          simp only [adrift, hk, Bool.and_eq_false_iff, Bool.not_eq_false',
            contains_iff_mem] at ha
          rcases ha with ha | ha
          · exact .inr (.inl ha)
          · rw [table_get_held hk] at hr
            cases p with
            | replaced row =>
              simp only [Priv.apply] at hr
              simp [hr] at ha
            | updated d =>
              have htr : t.trunc = false := Table.any_eq_false_iff.mp hS.open_ x t hx
              rw [htr] at hr
              obtain ⟨r₀, hr₀, -⟩ := map_eq_some_iff.mp hr
              have hr₀' : s.db.rows.get it.pk = some r₀ := hr₀
              rw [hr₀'] at ha
              refine .inr (.inr (.inr (.inl ⟨d, r₀, hk, by rw [hS.rows]; exact hr₀', ?_⟩)))
              simpa using ha
        · rcases hI.covered x t hx k p hk r hr with h | h | ⟨j, hj, rfl, -⟩ | h | ⟨hn, hb, -⟩
          · exact .inl (hS.keeps.isDead h)
          · exact .inr (.inl h)
          · rcases hS.stands hj with h | ⟨j', hj', e, ho⟩ | ⟨it, hit, e, -⟩
            · exact .inl h
            · exact .inr (.inr (.inl ⟨j', hj', e, ho, by simp [hdrop]⟩))
            · exact absurd ⟨it, hit, e⟩ hfl
          · refine .inr (.inr (.inr (.inl ?_)))
            rw [hS.rows]
            exact h
          · exact .inr (.inr (.inr (.inr ⟨hn, hb, fun it hit e => absurd ⟨it, hit, e⟩ hfl⟩)))
      locks := hI.locks.mono fun x t hx => hS.txns ▸ hx
      dropped := by rw [hS.txns]; exact hI.dropped
      flight := hS.flight }

/-- A write-back of the group, or of some of its jobs. -/
theorem ColumnInv.applyGroup (hG : Settles E put good) :
    ∀ {jobs : List (Nat × ItemOutcome)} {s s' : ColumnSys K δ T P}, ColumnInv E good s →
      applyGroup E put s jobs = some s' → ColumnInv E good s'
  | [], s, s', hI, h => by
    cases h
    exact hI
  | (id, o) :: jobs, s, s', hI, h => by
    unfold Postvec.applyGroup at h
    split at h
    · cases h
    · rename_i s₁ h₁
      exact ColumnInv.applyGroup hG (hI.ended hG (applyOne_ended hI.flight h₁)) h

omit [DecidableEq K] in
/-- The worker crashes: what it had in flight is only claimed now. -/
theorem ColumnInv.crash (hI : ColumnInv E good s) : ColumnInv E good { s with inflight := [] } where
  settled := hI.settled
  reading := fun it hit => by cases hit
  covered := by
    intro x t hx k p hk r hr
    rcases hI.covered x t hx k p hk r hr with h | h | ⟨j, hj, hjk, -, hd⟩ | h | ⟨hn, hb, -⟩
    · exact .inl h
    · exact .inr (.inl h)
    · exact .inr (.inr (.inl ⟨j, hj, hjk, fun it hit => (by cases hit), hd⟩))
    · exact .inr (.inr (.inr (.inl h)))
    · exact .inr (.inr (.inr (.inr ⟨hn, hb, fun it hit => by cases hit⟩)))
  locks := hI.locks
  dropped := hI.dropped
  flight := ⟨fun _ _ it hit => (by cases hit), fun it hit => (by cases hit)⟩

/-! ## 3. Writers -/

omit [DecidableEq K] in
/-- A transaction begins. -/
theorem ColumnInv.begin (hI : ColumnInv E good s) :
    ColumnInv E good { s with db := { s.db with
      txns := s.db.txns.put s.db.nextXid .fresh, nextXid := s.db.nextXid + 1 } } := by
  -- the new transaction holds nothing; what is asked of the others does not change
  exact
    { settled := hI.settled
      reading := hI.reading
      covered := by
        intro x t hx k p hk
        rcases Table.get_put_some hx with ⟨-, rfl⟩ | hx
        · cases hk
        · exact hI.covered x t hx k p hk
      locks := hI.locks.begin
      dropped := by
        intro x t hx
        rcases Table.get_put_some hx with ⟨-, rfl⟩ | hx
        · exact ⟨rfl, fun _ => rfl⟩
        · exact hI.dropped x t hx
      flight := ⟨hI.flight.claimed, hI.flight.issued⟩ }

/-- The row a transaction sees under a key whose jobs its statement left alone stays covered, if it
    has the text and the columns it had. -/
theorem Covered.of_leaves {r' : Row δ P} {t' w : Txn K δ P} {cs : List (Cmd K)}
    (h : Covered E s t k r) (ht' : t' = cs.foldl (Txn.run s.db.queue) w) (hown : w.own = t.own)
    (hdrop : w.dropped = t.dropped) (hc : ∀ c ∈ cs, c.leaves k)
    (htext : E.text r'.doc = E.text r.doc) (hcols : r'.cols = r.cols)
    (hsame : SameText E s.db.rows t k → SameText E s.db.rows t' k) : Covered E s t' k r' := by
  subst ht'
  rcases h with h | h | ⟨j, hj, hjk, ho, hd⟩ | h | ⟨hn, hb, hit⟩
  · exact .inl h
  · exact .inr (.inl (mem_own_foldl_of_leaves cs w hc (hown ▸ h)))
  · exact .inr (.inr (.inl ⟨j, hj, hjk, ho,
      notMem_dropped_foldl_of_leaves hj (hjk ▸ hc) (hdrop ▸ hd)⟩))
  · exact .inr (.inr (.inr (.inl (hsame h))))
  · exact .inr (.inr (.inr (.inr ⟨htext.trans hn, hcols.trans hb, hit⟩)))

/-- After a statement other than `TRUNCATE` every row of the transaction is covered. -/
theorem ColumnInv.covered_exec [BEq δ] [DecidableEq T] (hI : ColumnInv E good s) {st : Stmt K δ}
    (hx : s.db.txns.get x = some t) (hok : st.ok (t.table x s.db.rows) = true)
    (hst : st ≠ .truncate) (hc : s.careful E (.writer (.exec x st)) = true) {p : Priv δ P}
    (hk : (t.exec (columnTriggers E.text E.mode) x s.db st).mine.get k = some p)
    (hr : ((t.exec (columnTriggers E.text E.mode) x s.db st).table x s.db.rows).get k = some r) :
    Covered E s (t.exec (columnTriggers E.text E.mode) x s.db st) k r := by
  set t' := t.exec (columnTriggers E.text E.mode) x s.db st with ht'
  obtain ⟨wtr, wown, wdr, -⟩ := write_frame t x s.db.rows hst
  have htr : t'.trunc = t.trunc := trunc_exec_of_ne hst
  have hren : ∀ chs, st = .update chs → Rendered E.text (images (t.table x s.db.rows) chs) := by
    intro chs e
    subst e
    have halike : s.db.alike E.text (.exec x (.update chs)) = true := hc
    exact rendered_of_alike halike hx chs rfl
  have hr' := hr
  rw [table_get_held hk, htr] at hr'
  rcases exec_cases (rowTriggers_column E.text E.mode) hok hst (fun _ _ => trivial) hren hk with
    ⟨hk₀, -, hl⟩ | hs | rfl | ⟨d, rfl, hd, hview, rows, rfl, hmem⟩ | ⟨r₀, d, hr₀, hd, rfl, hl⟩
  · -- the statement did not concern the key
    refine (hI.covered x t hx k p hk₀ r (by rw [table_get_held hk₀]; exact hr')).of_leaves rfl
      wown wdr hl rfl rfl fun hs => ?_
    obtain ⟨d, r₁, hd, hr₁, htx⟩ := hs
    rw [hk₀] at hd
    cases hd
    exact ⟨d, r₁, hk, hr₁, htx⟩
  · rcases sees_iff.mp hs with h | ⟨j, hj, hp, hs, hd⟩
    · exact .inr (.inl h)
    · exact .inr (.inr (.inl ⟨j, hj, by rw [hs]; rfl, hI.flight.outside_of_pending hj hp, hd⟩))
  · cases hr'
  · -- a new row without a source, and no text is in flight for the key
    cases hr'
    refine .inr (.inr (.inr (.inr ⟨hd, rfl, fun it hit e => ?_⟩)))
    simp only [ColumnSys.careful, List.all_eq_true] at hc
    have := hc (k, d) hmem
    simp only [hd, isSome_none, Bool.false_or, List.all_eq_true] at this
    simpa [e] using this it hit
  · -- the row was updated in place with the text it had
    cases hk₀ : t.mine.get k with
    | none =>
      have hp : t.changed x (t.table x s.db.rows) ⟨k, k, d⟩ = .updated d := by
        simp [Txn.changed, hk₀]
      exact .inr (.inr (.inr (.inl ⟨d, r₀, hp ▸ hk, (row_of_free hk₀ hr₀).2, hd⟩)))
    | some p₀ =>
      have hcov := hI.covered x t hx k p₀ hk₀ r₀ hr₀
      rw [table_get_held hk₀] at hr₀
      cases p₀ with
      | replaced row =>
        cases hr₀
        have hp : t.changed x (t.table x s.db.rows) ⟨k, k, d⟩ =
            .replaced (some { r₀ with doc := d, xmin := x }) := by simp [Txn.changed, hk₀]
        rw [hp] at hr'
        cases hr'
        refine hcov.of_leaves rfl wown wdr hl hd rfl fun hs => ?_
        obtain ⟨d', r₁, hd', -⟩ := hs
        rw [hk₀] at hd'
        cases hd'
      | updated d₀ =>
        obtain ⟨r₁, hr₁, rfl⟩ := map_eq_some_iff.mp hr₀
        have hp : t.changed x (t.table x s.db.rows) ⟨k, k, d⟩ = .updated d := by
          simp [Txn.changed, hk₀]
        rw [hp] at hr' hk
        simp only [Priv.apply, hr₁, map_some, Option.some.injEq] at hr'
        subst hr'
        refine hcov.of_leaves rfl wown wdr hl hd rfl fun hs => ?_
        obtain ⟨d', r₂, hd', hr₂, htx⟩ := hs
        rw [hk₀] at hd'
        cases hd'
        exact ⟨d, r₂, hk, hr₂, hd.trans htx⟩

/-- A statement deletes jobs only when it is a `TRUNCATE`, and never a dead job. -/
theorem dropped_exec [BEq δ] (db : Db K δ P) (x : Nat) (t : Txn K δ P) (st : Stmt K δ)
    (h : t.droppedDead = [] ∧ (t.trunc = false → t.dropped = [])) :
    (t.exec (columnTriggers E.text E.mode) x db st).droppedDead = [] ∧
      ((t.exec (columnTriggers E.text E.mode) x db st).trunc = false →
        (t.exec (columnTriggers E.text E.mode) x db st).dropped = []) := by
  by_cases hst : st = .truncate
  · subst hst
    refine ⟨eq_nil_iff_forall_not_mem.mpr fun i hi => ?_, fun htr => ?_⟩
    · rw [Txn.exec, mem_droppedDead_foldl] at hi
      rcases hi with hi | ⟨p, hp, -⟩
      · rw [show (t.write x db.rows .truncate).droppedDead = t.droppedDead from rfl, h.1] at hi
        cases hi
      · simp [Triggers.fire, columnTriggers] at hp
    · rw [trunc_exec] at htr
      cases htr
  · have hfire := fire_enqueues E.text E.mode (t.table x db.rows) hst
    obtain ⟨wtr, -, wdr, wdd, -⟩ := write_frame t x db.rows hst
    refine ⟨eq_nil_iff_forall_not_mem.mpr fun i hi => ?_, fun htr =>
      eq_nil_iff_forall_not_mem.mpr fun i hi => ?_⟩
    · rw [Txn.exec, mem_droppedDead_foldl, wdd, h.1] at hi
      rcases hi with hi | ⟨p, hp, -⟩
      · cases hi
      · obtain ⟨_, e⟩ := hfire _ hp
        cases e
    · rw [trunc_exec, wtr] at htr
      rw [Txn.exec, mem_dropped_foldl, wdr, h.2 htr] at hi
      rcases hi with hi | ⟨p, hp, -⟩
      · cases hi
      · obtain ⟨_, e⟩ := hfire _ hp
        cases e

/-- A statement runs. -/
theorem ColumnInv.exec [BEq δ] [DecidableEq T] (hI : ColumnInv E good s) {st : Stmt K δ}
    (hx : s.db.txns.get x = some t) (hl : s.db.locked x st = false)
    (hok : st.ok (t.table x s.db.rows) = true)
    (hc : s.careful E (.writer (.exec x st)) = true) :
    ColumnInv E good { s with db := { s.db with
      txns := s.db.txns.put x (t.exec (columnTriggers E.text E.mode) x s.db st) } } where
  settled := hI.settled
  reading := hI.reading
  covered := by
    intro y u hu k p hk r hr
    rcases Table.get_put_some hu with ⟨rfl, rfl⟩ | hu
    · have hst : st ≠ .truncate := by
        rintro rfl
        rw [mine_exec] at hk
        simp [Txn.write] at hk
      exact hI.covered_exec hx hok hst hc hk hr
    · exact hI.covered y u hu k p hk r hr
  locks := hI.locks.exec hx hl
  dropped := by
    intro y u hu
    rcases Table.get_put_some hu with ⟨rfl, rfl⟩ | hu
    · exact dropped_exec s.db _ t st (hI.dropped _ t hx)
    · exact hI.dropped y u hu
  flight := ⟨hI.flight.claimed, hI.flight.issued⟩

omit [DecidableEq K] in
/-- A transaction rolls back. -/
theorem ColumnInv.rollback (hI : ColumnInv E good s) (x : Nat) :
    ColumnInv E good { s with db := { s.db with txns := s.db.txns.erase x } } := by
  have herase : ∀ y u, (s.db.txns.erase x).get y = some u → s.db.txns.get y = some u :=
    fun _ _ hu => (Table.get_erase_some hu).2
  exact
    { settled := hI.settled
      reading := hI.reading
      covered := fun y u hu => hI.covered y u (herase y u hu)
      locks := hI.locks.mono herase
      dropped := fun y u hu => hI.dropped y u (herase y u hu)
      flight := ⟨hI.flight.claimed, hI.flight.issued⟩ }

/-- The system once transaction `t` has committed. -/
def ColumnSys.committed (s : ColumnSys K δ T P) (x : Nat) (t : Txn K δ P) : ColumnSys K δ T P :=
  { s with db := { s.db with
      rows := t.table x s.db.rows
      queue := t.commitQueue s.db.queue
      txns := s.db.txns.erase x } }

/-- A row is settled or has a job, and what is in flight for it agrees with it. -/
def ColumnSys.Accounts (s : ColumnSys K δ T P) (E : ColumnEntry δ T V) (good : K → Row δ P → Prop)
    (k : K) (r : Row δ P) : Prop :=
  (good k r ∨ s.db.queue.Dead k ∨ s.db.queue.Live k) ∧
    ∀ it ∈ s.inflight, it.pk = k → E.text r.doc = it.text ∨ s.Waiting k

section Commit

variable (hI : ColumnInv E good s) (hx : s.db.txns.get x = some t)
include hI hx

omit [DecidableEq K] in
/-- A row the transaction does not hold is as before, and so are the jobs. -/
theorem ColumnInv.committed_free (hk : t.mine.get k = none)
    (hr : (t.table x s.db.rows).get k = some r) :
    s.db.rows.get k = some r ∧ t.dropped = [] := by
  obtain ⟨htr, hr⟩ := row_of_free hk hr
  exact ⟨hr, (hI.dropped x t hx).2 htr⟩

/-- A job not in flight that the transaction has not deleted stands after the commit, as do its
    own jobs; if it deleted nothing, all jobs do. -/
theorem ColumnInv.committed_waiting
    (h : s.db.queue.Dead k ∨ rowSlot k ∈ t.own ∨
      ∃ j ∈ s.db.queue.jobs, j.slot.pk = k ∧ s.Outside j.id ∧ j.id ∉ t.dropped) :
    (s.committed x t).Waiting k := by
  have hq := keeps_commitQueue s.db.queue (hI.dropped x t hx).1
  rcases h with h | h | ⟨j, hj, hjk, ho, hd⟩
  · exact .inl (hq.isDead h)
  · obtain ⟨j, hj, hp, hs⟩ := pending_commitQueue (q := s.db.queue) h
    refine .inr ⟨j, hj, by rw [hs]; rfl, fun it hit e => ?_⟩
    have hF : (s.committed x t).Flight := hI.flight.grows hq.grows fun _ h => h
    exact hF.outside_of_pending hj hp it hit e
  · exact .inr ⟨j, hq.jobs j hj hd, hjk, ho⟩

/-- A committed row. -/
theorem ColumnInv.committed_row (hG : Settles E put good)
    (hr : (t.table x s.db.rows).get k = some r) : (s.committed x t).Accounts E good k r := by
  have hq := keeps_commitQueue s.db.queue (hI.dropped x t hx).1
  -- with no job deleted, what held of a committed row of the same text and vector still does
  have keep : ∀ r₀, s.db.rows.get k = some r₀ → t.dropped = [] → E.text r.doc = E.text r₀.doc →
      r.cols = r₀.cols → (s.committed x t).Accounts E good k r := by
    intro r₀ hr₀ hd ht hcol
    refine ⟨?_, ?_⟩
    · rcases hI.settled k r₀ hr₀ with h | h | ⟨j, hj, hjk⟩
      · exact .inl (hG.congr h ht hcol)
      · exact .inr (.inl (hq.isDead h))
      · exact .inr (.inr ⟨j, hq.jobs j hj (by simp [hd]), hjk⟩)
    · intro it hit e
      subst e
      rcases hI.reading it hit r₀ hr₀ with h | h | ⟨j, hj, hjk, ho⟩
      · exact .inl (ht.trans h)
      · exact .inr (hI.committed_waiting hx (.inl h))
      · exact .inr (hI.committed_waiting hx (.inr (.inr ⟨j, hj, hjk, ho, by simp [hd]⟩)))
  cases hk : t.mine.get k with
  | none =>
    obtain ⟨hr₀, hd⟩ := hI.committed_free hx hk hr
    exact keep r hr₀ hd rfl rfl
  | some p =>
    have wait : (s.committed x t).Waiting k → (s.committed x t).Accounts E good k r :=
      fun h => ⟨.inr h.live, fun _ _ _ => .inr h⟩
    rcases hI.covered x t hx k p hk r hr with h | h | h | ⟨d, r₀, hd, hr₀, ht⟩ | ⟨hn, hb, hit⟩
    · exact wait (hI.committed_waiting hx (.inl h))
    · exact wait (hI.committed_waiting hx (.inr (.inl h)))
    · exact wait (hI.committed_waiting hx (.inr (.inr h)))
    · -- updated in place: the row keeps the columns it had
      rw [table_get_held hd] at hr
      cases htr : t.trunc with
      | true => simp [htr, Priv.apply] at hr
      | false =>
        simp only [htr, Bool.false_eq_true, if_false, Priv.apply, hr₀, map_some,
          Option.some.injEq] at hr
        subst hr
        exact keep r₀ hr₀ ((hI.dropped x t hx).2 htr) ht rfl
    · exact ⟨.inl (hG.congr (hG.blank k r.doc 0 hn) rfl hb),
        fun it h e => .inl (hn.trans (hit it h e).symm)⟩

/-- A transaction commits. -/
theorem ColumnInv.commit (hG : Settles E put good) : ColumnInv E good (s.committed x t) := by
  have hq := keeps_commitQueue s.db.queue (hI.dropped x t hx).1
  have herase : ∀ y u, (s.db.txns.erase x).get y = some u → y ≠ x ∧ s.db.txns.get y = some u :=
    fun _ _ hu => Table.get_erase_some hu
  exact
    { settled := fun k r hr => (hI.committed_row hx hG hr).1
      reading := fun it hit r hr => (hI.committed_row hx hG hr).2 it hit rfl
      covered := by
        intro y u hu k p hk r hr
        obtain ⟨hyx, hu⟩ := herase y u hu
        -- another transaction holds the key: this one has not touched it, nor truncated
        have hheld : u.mine.get k ≠ none := by
          rw [hk]
          exact some_ne_none _
        obtain ⟨htr, hfree⟩ := hI.locks.free hx hu hyx.symm hheld
        have hrow : (t.table x s.db.rows).get k = s.db.rows.get k := by
          rw [table_get_free hfree, htr]
          rfl
        have hd : t.dropped = [] := (hI.dropped x t hx).2 htr
        have hr' : (u.table y s.db.rows).get k = some r :=
          (table_get_congr (.inr hheld) fun _ => hrow).symm.trans hr
        rcases hI.covered y u hu k p hk r hr' with h | h | ⟨j, hj, hjk, ho, hnd⟩ |
          ⟨d, r₀, hdoc, hr₀, ht⟩ | h
        · exact .inl (hq.isDead h)
        · exact .inr (.inl h)
        · exact .inr (.inr (.inl ⟨j, hq.jobs j hj (by simp [hd]), hjk, ho, hnd⟩))
        · exact .inr (.inr (.inr (.inl ⟨d, r₀, hdoc, hrow.trans hr₀, ht⟩)))
        · exact .inr (.inr (.inr (.inr h)))
      locks := hI.locks.mono fun y u hu => (herase y u hu).2
      dropped := fun y u hu => hI.dropped y u (herase y u hu).2
      flight := hI.flight.grows hq.grows fun _ h => h }

end Commit

/-- Every step under the condition keeps the invariant. -/
theorem ColumnInv.step [BEq δ] [DecidableEq T] (hG : Settles E put good) (hI : ColumnInv E good s)
    {a : ColumnAct K δ} (hc : s.careful E a = true) (h : s.step E put a = some s') :
    ColumnInv E good s' := by
  cases a with
  | writer w =>
    obtain ⟨db, hw, rfl⟩ := map_eq_some_iff.mp h
    rcases writer_cases hw with ⟨-, rfl⟩ | ⟨x, st, t, rfl, ht, hl, hok, rfl⟩ | ⟨x, t, -, ht, rfl⟩ |
      ⟨x, t, -, -, rfl⟩
    · exact hI.begin
    · exact hI.exec ht hl hok hc
    · exact hI.commit ht hG
    · exact hI.rollback x
  | claimAndRead ids => exact hI.claim hc h
  | applyGroup jobs => exact hI.applyGroup hG h
  | releaseFailed ids => exact hI.ended hG (releaseFailed_ended hI.flight h)
  | reclaimStale ids => exact hI.ended hG (reclaimStale_ended hI.flight h)
  | crash =>
    cases h
    exact hI.crash

/-! ## 4. Convergence -/

omit [DecidableEq K] in
/-- A state with nothing open or in flight, and every row settled or with a job. -/
theorem ColumnInv.of_idle (htx : ∀ x, s.db.txns.get x = none) (hin : s.inflight = [])
    (h : ∀ k r, s.db.rows.get k = some r → good k r ∨ s.db.queue.Dead k ∨ s.db.queue.Live k) :
    ColumnInv E good s where
  settled := h
  reading := fun it hit => by simp [hin] at hit
  covered := fun x t hx => by simp [htx] at hx
  locks := ⟨fun x y t t' hx => by simp [htx] at hx, fun x y t t' hx => by simp [htx] at hx⟩
  dropped := fun x t hx => by simp [htx] at hx
  flight := ⟨fun j _ it hit => by simp [hin] at hit, fun it hit => by simp [hin] at hit⟩

/-- A state runs start from: nothing is open or in flight, and every row has its vector, a job or a
    dead job. -/
def ColumnSys.Start (E : ColumnEntry δ T V) (s : ColumnSys K δ T (Option V)) : Prop :=
  (∀ x, s.db.txns.get x = none) ∧ s.inflight = [] ∧
    ∀ k r, s.db.rows.get k = some r → E.Good r ∨ s.db.queue.Dead k ∨ s.db.queue.Live k

omit [DecidableEq K] in
theorem settles_good (E : ColumnEntry δ T V) :
    Settles E setVector fun (_ : K) (r : Row δ (Option V)) => E.Good r where
  congr := fun h ht hc => by
    rw [ColumnEntry.Good] at h ⊢
    rw [hc, ht, h]
  put := fun _ _ _ => rfl
  blank := fun _ d _ hd => by
    rw [ColumnEntry.Good, hd]
    rfl

/-- **Convergence.** In every run of writers, workers, reclaims and crashes whose claims, inserts
    and updates meet the condition, in every state reached: a row without a live or dead job has the
    vector of the text it renders, or none if it renders none. -/
theorem columnSync_converges [BEq δ] [DecidableEq T] (E : ColumnEntry δ T V)
    (s₀ s : ColumnSys K δ T (Option V)) (h₀ : s₀.Start E)
    (h : Reach (ColumnSys.step E setVector) (fun s a => s.careful E a = true) s₀ s) (k : K)
    (r : Row δ (Option V)) (hr : s.db.rows.get k = some r) (hlive : ¬ s.db.queue.Live k)
    (hdead : ¬ s.db.queue.Dead k) : r.cols = (E.text r.doc).map E.embed := by
  have hI : ColumnInv E (fun _ r => E.Good r) s :=
    h.invariant (.of_idle h₀.1 h₀.2.1 h₀.2.2) fun s a s' hI hc hs => hI.step (settles_good E) hc hs
  rcases hI.settled k r hr with hg | hd | hl
  · exact hg
  · exact absurd hd hdead
  · exact absurd hl hlive

end Invariant

/-! ## 5. Two runs -/

section Runs

/-- An entry whose document is its text, and whose model returns the text. -/
def plainEntry : ColumnEntry (Option Nat) Nat Nat where
  text := id
  embed := id
  bytes := fun _ => 1
  width := fun _ => 1
  dim := 1
  itemCap := 10
  budget := 10
  maxRetries := 3
  mode := .statement

/-- An empty table with an empty queue. -/
def ColumnSys.initial : ColumnSys Nat (Option Nat) Nat (Option Nat) where
  db := ⟨.empty, .empty, .empty, 0⟩
  inflight := []

theorem ColumnSys.initial_start : ColumnSys.initial.Start plainEntry := by
  refine ⟨fun _ => rfl, rfl, ?_⟩
  intro k r hr
  cases hr

/-- Row 1 is inserted with text 10; while its job is pending an open transaction sets the text to
    20, which adds no second job. The worker claims the job, reads 10, and applies after the
    commit. -/
def coalescedRun : List (ColumnAct Nat (Option Nat)) :=
  [.writer .begin, .writer (.exec 0 (.insert [(1, some 10)])), .writer (.commit 0),
    .writer .begin, .writer (.exec 1 (.update [⟨1, 1, some 20⟩])), .claimAndRead [0],
    .writer (.commit 1), .applyGroup [(0, .ok)]]

/-- **A stale vector.** Without the condition a reachable state has no open transaction and no job,
    live or dead, and a row of text 20 with the vector of 10. -/
theorem stale_vector_reachable :
    ∃ s, Reach (ColumnSys.step plainEntry setVector) (fun _ _ => True) ColumnSys.initial s ∧
      s.db.rows.get 1 = some ⟨some 20, some 10, 2⟩ ∧ (∀ x, s.db.txns.get x = none) ∧
      s.db.queue.jobs = [] ∧ s.db.queue.dead = [] := by
  let p : ColumnSys Nat (Option Nat) Nat (Option Nat) → Bool := fun s =>
    decide (s.db.rows.get 1 = some ⟨some 20, some 10, 2⟩ ∧
      (s.db.txns.any fun _ _ => true) = false ∧ s.db.queue.jobs = [] ∧ s.db.queue.dead = [])
  have h : (runWhile (ColumnSys.step plainEntry setVector) (fun _ _ => True) ColumnSys.initial
      coalescedRun).any p = true := by decide
  obtain ⟨s, hs, hp⟩ := Reach.exists_of_runWhile h
  obtain ⟨hrow, htx, hq⟩ := of_decide_eq_true hp
  refine ⟨s, hs, hrow, fun x => ?_, hq⟩
  by_contra hx
  obtain ⟨t, ht⟩ := ne_none_iff_exists'.mp hx
  cases Table.any_eq_false_iff.mp htx x t ht

/-- The same writes with the claim after the commit. -/
def settledRun : List (ColumnAct Nat (Option Nat)) :=
  [.writer .begin, .writer (.exec 0 (.insert [(1, some 10)])), .writer (.commit 0),
    .writer .begin, .writer (.exec 1 (.update [⟨1, 1, some 20⟩])), .writer (.commit 1),
    .claimAndRead [0], .applyGroup [(0, .ok)]]

/-- A run that meets the condition: the row ends with the vector of its text. -/
theorem settledRun_converges :
    ∃ s, Reach (ColumnSys.step plainEntry setVector) (fun s a => s.careful plainEntry a = true)
        ColumnSys.initial s ∧ ∃ r, s.db.rows.get 1 = some r ∧ r.doc = some 20 ∧
      r.cols = (plainEntry.text r.doc).map plainEntry.embed := by
  let p : ColumnSys Nat (Option Nat) Nat (Option Nat) → Bool := fun s =>
    decide ((s.db.rows.get 1).map Row.doc = some (some 20) ∧ s.db.queue.jobs = [] ∧
      s.db.queue.dead = [])
  have h : (runWhile (ColumnSys.step plainEntry setVector)
    (fun s a => s.careful plainEntry a = true)
      ColumnSys.initial settledRun).any p = true := by decide
  obtain ⟨s, hs, hp⟩ := Reach.exists_of_runWhile h
  obtain ⟨hdoc, hjobs, hdead⟩ := of_decide_eq_true hp
  obtain ⟨r, hr, hd⟩ := map_eq_some_iff.mp hdoc
  refine ⟨s, hs, r, hr, hd, columnSync_converges plainEntry _ s ColumnSys.initial_start hs 1 r hr
    ?_ ?_⟩
  · rintro ⟨j, hj, -⟩
    rw [hjobs] at hj
    cases hj
  · rintro ⟨j, hj, -⟩
    rw [hdead] at hj
    cases hj

end Runs

end Postvec
