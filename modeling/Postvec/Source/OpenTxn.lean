import Postvec.Source.Docs

/-!
# Open transactions: row versions and deleted jobs

Two things the managed worker's checks rest on, over every step of a writer:

* versions (`Db.Stamped`): a committed row carries the id of a transaction that has ended
  (`Db.Past`). What an open or later transaction writes has another version, so a version read
  once and found again is the same row (`Db.Seen`);
* deletions (`Txn.Drops`): an open transaction has deleted jobs and dead jobs of keys it holds only,
  and their ids are not live again.
-/

namespace Postvec

open Machine

variable {K δ P : Type*}

/-! ## 1. Versions -/

/-- The id of a transaction that has ended. -/
def Db.Past (db : Db K δ P) (v : Nat) : Prop := v < db.nextXid ∧ db.txns.get v = none

/-- Every committed row was written by a transaction that has ended, and what an open transaction
    has put under a key carries its id. -/
structure Db.Stamped (db : Db K δ P) : Prop where
  rows : ∀ k r, db.rows.get k = some r → db.Past r.xmin
  started : ∀ x t, db.txns.get x = some t → x < db.nextXid
  mine : ∀ x t, db.txns.get x = some t → ∀ k r, t.mine.get k = some (.replaced (some r)) →
    r.xmin = x

section Versions

variable {db db' : Db K δ P} {x v : Nat} {t : Txn K δ P} {k : K}

theorem Db.Past.ne (h : db.Past v) (ht : db.txns.get x = some t) : v ≠ x := by
  intro e
  have := h.2
  rw [e, ht] at this
  cases this

theorem Db.Past.erase (h : db.Past v) (x : Nat) :
    ({ db with txns := db.txns.erase x } : Db K δ P).Past v := by
  refine ⟨h.1, ?_⟩
  change (db.txns.erase x).get v = none
  rw [Table.get_erase, h.2]
  exact ite_self _

/-- A row a transaction has written carries its id. -/
theorem Db.Stamped.xmin_of_held (h : db.Stamped) (ht : db.txns.get x = some t) {p : Priv δ P}
    (hk : t.mine.get k = some p) {r : Row δ P} (hr : (t.table x db.rows).get k = some r) :
    r.xmin = x := by
  rw [table_get_held hk] at hr
  cases p with
  | updated d =>
    obtain ⟨r₀, -, rfl⟩ := Option.map_eq_some_iff.mp hr
    rfl
  | replaced row =>
    have hrow : row = some r := hr
    exact h.mine x t ht k r (hrow ▸ hk)

variable [DecidableEq K] [Inhabited P] {trg : Triggers K δ} {st : Stmt K δ} {w : WriterAct K δ}

/-- The rows a statement puts under a key carry the transaction's id. -/
theorem xmin_exec (hS : ∀ k r, t.mine.get k = some (.replaced (some r)) → r.xmin = x)
    (hok : st.ok (t.table x db.rows) = true) {r : Row δ P}
    (h : (t.exec trg x db st).mine.get k = some (.replaced (some r))) : r.xmin = x := by
  rcases mine_exec_keys h with hm | hk
  · exact hS k r hm
  generalize hp : Priv.replaced (some r) = p at h
  cases exec_written hok hk h with
  | inserted =>
    cases hp
    rfl
  | deleted | left => cases hp
  | changed =>
    unfold Txn.changed at hp
    split at hp
    · split at hp
      · obtain ⟨r₀, -, rfl⟩ := Option.map_eq_some_iff.mp (Priv.replaced.inj hp).symm
        rfl
      · cases hp
    · obtain ⟨r₀, -, rfl⟩ := Option.map_eq_some_iff.mp (Priv.replaced.inj hp).symm
      rfl

/-- A version stays past. -/
theorem Db.Past.writer (h : db.Past v) (hw : db.writer trg w = some db') : db'.Past v := by
  rcases writer_cases hw with ⟨-, rfl⟩ | ⟨x, st, t, -, ht, -, -, rfl⟩ | ⟨x, t, -, ht, rfl⟩ |
    ⟨x, t, -, -, rfl⟩
  · refine ⟨Nat.lt_succ_of_lt h.1, ?_⟩
    change (db.txns.put db.nextXid .fresh).get v = none
    rw [Table.get_put, if_neg (Nat.ne_of_lt h.1)]
    exact h.2
  · refine ⟨h.1, ?_⟩
    change (db.txns.put x _).get v = none
    rw [Table.get_put, if_neg (h.ne ht)]
    exact h.2
  · exact ⟨h.1, (h.erase x).2⟩
  · exact h.erase x

/-- **Writers keep versions apart.** -/
theorem Db.Stamped.writer (h : db.Stamped) (hw : db.writer trg w = some db') : db'.Stamped := by
  have hpast : ∀ v, db.Past v → db'.Past v := fun v hv => hv.writer hw
  rcases writer_cases hw with ⟨-, rfl⟩ | ⟨x, st, t, -, ht, -, hok, rfl⟩ | ⟨x, t, -, ht, rfl⟩ |
    ⟨x, t, -, -, rfl⟩
  · refine ⟨fun k r hr => hpast _ (h.rows k r hr), fun y u hu => ?_, fun y u hu k r hk => ?_⟩
    · rcases Table.get_put_some hu with ⟨rfl, -⟩ | hu
      · exact Nat.lt_succ_self _
      · exact Nat.lt_succ_of_lt (h.started y u hu)
    · rcases Table.get_put_some hu with ⟨-, rfl⟩ | hu
      · cases hk
      · exact h.mine y u hu k r hk
  · refine ⟨fun k r hr => hpast _ (h.rows k r hr), fun y u hu => ?_, fun y u hu k r hk => ?_⟩
    · rcases Table.get_put_some hu with ⟨rfl, -⟩ | hu
      · exact h.started _ t ht
      · exact h.started y u hu
    · rcases Table.get_put_some hu with ⟨rfl, rfl⟩ | hu
      · exact xmin_exec (h.mine _ t ht) hok hk
      · exact h.mine y u hu k r hk
  · refine ⟨fun k r hr => ?_, fun y u hu => h.started y u (Table.get_erase_some hu).2,
      fun y u hu => h.mine y u (Table.get_erase_some hu).2⟩
    have hr' : (t.table x db.rows).get k = some r := hr
    cases hk : t.mine.get k with
    | none =>
      -- not written by the transaction: the committed row
      exact hpast _ (h.rows k r (row_of_free hk hr').2)
    | some p =>
      rw [h.xmin_of_held ht hk hr']
      refine ⟨h.started x t ht, ?_⟩
      change (db.txns.erase x).get x = none
      simp
  · exact ⟨fun k r hr => hpast _ (h.rows k r hr),
      fun y u hu => h.started y u (Table.get_erase_some hu).2,
      fun y u hu => h.mine y u (Table.get_erase_some hu).2⟩

/-- What was read under a key with the version `v` holds as long as the version is there. -/
def Db.Seen (db : Db K δ P) (k : K) (v : Nat) (φ : Row δ P → Prop) : Prop :=
  db.Past v ∧ ∀ r, db.rows.get k = some r → r.xmin = v → φ r

variable {φ : Row δ P → Prop}

/-- **A version found again is the row that was read.** -/
theorem Db.Seen.writer (h : db.Seen k v φ) (hS : db.Stamped) (hw : db.writer trg w = some db') :
    db'.Seen k v φ := by
  refine ⟨h.1.writer hw, fun r hr hx => ?_⟩
  rcases writer_cases hw with ⟨-, rfl⟩ | ⟨x, st, t, -, -, -, -, rfl⟩ | ⟨x, t, -, ht, rfl⟩ |
    ⟨x, t, -, -, rfl⟩
  · exact h.2 r hr hx
  · exact h.2 r hr hx
  · have hr' : (t.table x db.rows).get k = some r := hr
    cases hk : t.mine.get k with
    | some p =>
      -- written by the transaction: its version is not one that was read
      exact absurd (hx.symm.trans (hS.xmin_of_held ht hk hr')) (h.1.ne ht)
    | none =>
      exact h.2 r (row_of_free hk hr').2 hx
  · exact h.2 r hr hx

omit [DecidableEq K] [Inhabited P] in
/-- The columns of every row change, and their versions do not. -/
theorem Db.Seen.map (h : db.Seen k v φ) {g : Row δ P → Row δ P} (hx : ∀ r, (g r).xmin = r.xmin)
    (hφ : ∀ r, φ r → φ (g r)) : ({ db with rows := db.rows.map g } : Db K δ P).Seen k v φ := by
  refine ⟨h.1, fun r' hr' hv => ?_⟩
  obtain ⟨r, hr, rfl⟩ := Option.map_eq_some_iff.mp hr'
  exact hφ r (h.2 r hr ((hx r).symm.trans hv))

omit [Inhabited P] in
/-- A worker's write gives a version of its own. -/
theorem Db.Seen.writeVector (h : db.Seen k v φ) (k' : K) (f : P → P) (q : Queue K) :
    ({ writeVector db k' f with queue := q } : Db K δ P).Seen k v φ := by
  refine ⟨⟨Nat.lt_succ_of_lt h.1.1, h.1.2⟩, fun r hr hx => ?_⟩
  have hr' : (db.rows.adjust k' fun r => { r with cols := f r.cols, xmin := db.nextXid }).get k =
      some r := hr
  rw [Table.get_adjust] at hr'
  split at hr'
  · obtain ⟨r₀, -, rfl⟩ := Option.map_eq_some_iff.mp hr'
    exact absurd hx.symm (Nat.ne_of_lt h.1.1)
  · exact h.2 r hr' hx

end Versions

/-! ## 2. Deleted jobs -/

/-- What the transaction has deleted belongs to keys it holds, unless it has truncated the table;
    the ids are old and those of dead jobs are not live. -/
structure Txn.Drops (t : Txn K δ P) (q : Queue K) : Prop where
  dropped : ∀ j ∈ q.jobs, j.id ∈ t.dropped → t.trunc = true ∨ t.mine.get j.slot.pk ≠ none
  droppedDead : ∀ d ∈ t.droppedDead, t.trunc = true ∨ t.mine.get d.slot.pk ≠ none
  issued : ∀ i ∈ t.dropped, i < q.nextId
  buried : ∀ d ∈ t.droppedDead, d.id < q.nextId ∧ ∀ j ∈ q.jobs, j.id ≠ d.id

section Drops

variable {q q' : Queue K} {t : Txn K δ P} {db : Db K δ P} {x : Nat}

theorem Txn.Drops.fresh (q : Queue K) : (Txn.fresh : Txn K δ P).Drops q where
  dropped := fun _ _ h => by cases h
  droppedDead := fun _ h => by cases h
  issued := fun _ h => by cases h
  buried := fun _ h => by cases h

/-- Deletions stay so while the queue grows. -/
theorem Txn.Drops.grows [DecidableEq K] (h : t.Drops q) (hg : Queue.Grows q q') : t.Drops q' where
  dropped := by
    intro j hj hd
    rcases hg.new j hj with ⟨j', hj', e, es, -⟩ | hid
    · rw [← es]
      exact h.dropped j' hj' (e ▸ hd)
    · have := h.issued _ hd
      omega
  droppedDead := h.droppedDead
  issued := fun i hi => Nat.lt_of_lt_of_le (h.issued i hi) hg.next
  buried := by
    intro d hd
    obtain ⟨hlt, hne⟩ := h.buried d hd
    refine ⟨Nat.lt_of_lt_of_le hlt hg.next, fun j hj e => ?_⟩
    rcases hg.new j hj with ⟨j', hj', e', -⟩ | hid
    · exact hne j' hj' (e'.trans e)
    · omega

variable [DecidableEq K] [Inhabited P] {trg : Triggers K δ} {st : Stmt K δ}

/-- A statement whose triggers concern only keys it writes. -/
theorem Txn.Drops.exec (h : t.Drops db.queue)
    (hfree : st ≠ .truncate → ∀ k, (t.exec trg x db st).mine.get k = none →
      t.mine.get k = none ∧ ∀ c ∈ trg.fire (t.table x db.rows) st, c.leaves k) :
    (t.exec trg x db st).Drops db.queue := by
  refine ⟨dropped_exec_held hfree h.dropped, droppedDead_exec_held hfree h.droppedDead,
    issued_exec h.issued, fun d hd => ?_⟩
  rcases (mem_droppedDead_foldl _ _).mp hd with hd | ⟨p, -, hd, -⟩
  · cases st with
    | insert | update | delete | truncate => exact h.buried d hd
  · exact ⟨db.queue.dead_lt d hd, fun j hj => (db.queue.dead_apart d hd j hj).symm⟩

end Drops

end Postvec
