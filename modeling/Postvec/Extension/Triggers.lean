import Postvec.Extension.ColumnSpec
import Postvec.Source.Docs

/-!
# The extension's column-mode triggers, column by column

PostgreSQL fires an `UPDATE OF` trigger only if the `SET` list names a listed column, whatever the
application's `BEFORE ROW` triggers then make of the row; the `WHEN` guard is evaluated on the final
row. Here a row is a value in each column, and an `UPDATE` has a `SET` list and `BEFORE ROW`
triggers.

* `changes_enqueued_iff`: exactly when every effective change is enqueued;
* `silent_change_reachable`: a `BEFORE ROW` trigger changes the source, or the key, in a statement
  whose `SET` list does not name it, and no job is enqueued;
* `enqueueTriggers_eq`: where only columns of the `SET` list change, this is `columnTriggers` of
  `Extension/Column.lean`.
-/

namespace Postvec

open Machine List

/-! ## 1. The statement -/

/-- What `create_enqueue_triggers` reads of an entry: its key and referenced columns. -/
structure WatchedColumns (C : Type*) where
  pk : List C
  refs : List C
  mode : TriggerMode

/-- A `BEFORE ROW` trigger gets the old and the proposed row and returns a row, or NULL to skip
    the update. -/
abbrev BeforeTrigger (C Val : Type*) := (C → Val) → (C → Val) → Option (C → Val)

/-- An `UPDATE`: the `SET` list with its values, the application's `BEFORE ROW` triggers in their
    order, and the rows it finds. -/
structure UpdateStmt (C Val : Type*) where
  targets : List C
  assign : (C → Val) → C → Val
  before : List (BeforeTrigger C Val)
  rows : List (C → Val)

section Model

variable {C Val : Type*} [DecidableEq C]

/-- The row the `SET` list proposes. -/
def UpdateStmt.proposed (u : UpdateStmt C Val) (old : C → Val) : C → Val :=
  fun c => if c ∈ u.targets then u.assign old c else old c

/-- The `BEFORE ROW` triggers, one after the other. -/
def runBefore (old : C → Val) : List (BeforeTrigger C Val) → (C → Val) → Option (C → Val)
  | [], new => some new
  | trg :: trgs, new => (trg old new).bind (runBefore old trgs)

/-- The updated rows, each with its old and its final version. -/
def UpdateStmt.updated (u : UpdateStmt C Val) : List ((C → Val) × (C → Val)) :=
  u.rows.filterMap fun old => (runBefore old u.before (u.proposed old)).map fun new => (old, new)

/-- The images of the updated rows: key and referenced columns. -/
def UpdateStmt.watched (W : WatchedColumns C) (u : UpdateStmt C Val) :
    List (Image (List Val) (List Val)) :=
  u.updated.map fun r => ⟨W.pk.map r.1, W.refs.map r.1, W.pk.map r.2, W.refs.map r.2⟩

/-- An `UPDATE OF` trigger on these columns fires. -/
def UpdateStmt.sets (u : UpdateStmt C Val) (cols : List C) : Bool :=
  cols.any fun c => u.targets.contains c

variable [DecidableEq Val]

/-- The queue statements of the generated triggers. In statement mode the trigger on the referenced
    columns has no column list, since it has transition tables. -/
def enqueueTriggers (W : WatchedColumns C) (u : UpdateStmt C Val) : List (Cmd (List Val)) :=
  (if u.sets W.pk then trgPk (u.watched W) else []) ++
    match W.mode with
    | .row => if u.sets W.refs then trgUpdRow (u.watched W) else []
    | .statement => trgUpdStmt (u.watched W)

/-! ## 2. What is enqueued -/

/-- A key some trigger enqueues: of a row with that final key whose key changed and is in the `SET`
    list; or (row mode) whose referenced columns changed and are in the `SET` list; or (statement
    mode) whose referenced columns differ from those of the row that had the key before. -/
def UpdateStmt.Announces (W : WatchedColumns C) (u : UpdateStmt C Val) (k : List Val) : Prop :=
  ∃ r ∈ u.updated, W.pk.map r.2 = k ∧
    ((u.sets W.pk = true ∧ W.pk.map r.2 ≠ W.pk.map r.1) ∨
      match W.mode with
      | .row => u.sets W.refs = true ∧ W.refs.map r.2 ≠ W.refs.map r.1
      | .statement => ∃ o ∈ u.updated, W.pk.map o.1 = k ∧ W.refs.map r.2 ≠ W.refs.map o.1)

variable {W : WatchedColumns C} {u : UpdateStmt C Val} {k : List Val}

omit [DecidableEq Val] in
theorem mem_watched {i : Image (List Val) (List Val)} : i ∈ u.watched W ↔
    ∃ r ∈ u.updated, i = ⟨W.pk.map r.1, W.refs.map r.1, W.pk.map r.2, W.refs.map r.2⟩ := by
  simp only [UpdateStmt.watched, mem_map, @eq_comm _ i]

omit [DecidableEq Val] in
/-- The keys a trigger on single rows enqueues: those of the rows its guard `p` picks. -/
theorem mem_picked {p : Image (List Val) (List Val) → Bool} : .enqueue (rowSlot k) ∈
      ((u.watched W).filter p).map (fun i => Cmd.enqueue (rowSlot i.newKey)) ↔
    ∃ r ∈ u.updated, W.pk.map r.2 = k ∧
      p ⟨W.pk.map r.1, W.refs.map r.1, W.pk.map r.2, W.refs.map r.2⟩ = true := by
  simp only [mem_map, mem_filter]
  refine ⟨fun h => ?_, fun h => ?_⟩
  · obtain ⟨i, ⟨hi, hp⟩, e⟩ := h
    obtain ⟨r, hr, rfl⟩ := mem_watched.mp hi
    exact ⟨r, hr, congrArg Slot.pk (Cmd.enqueue.inj e), hp⟩
  · obtain ⟨r, hr, rfl, hp⟩ := h
    exact ⟨_, ⟨mem_watched.mpr ⟨r, hr, rfl⟩, hp⟩, rfl⟩

theorem mem_trgPk : .enqueue (rowSlot k) ∈ trgPk (u.watched W) ↔
    ∃ r ∈ u.updated, W.pk.map r.2 = k ∧ W.pk.map r.2 ≠ W.pk.map r.1 := by
  simp only [trgPk, mem_picked, decide_eq_true_eq]

theorem mem_trgUpdRow : .enqueue (rowSlot k) ∈ trgUpdRow (u.watched W) ↔
    ∃ r ∈ u.updated, W.pk.map r.2 = k ∧ W.refs.map r.2 ≠ W.refs.map r.1 := by
  simp only [trgUpdRow, mem_picked, bne_iff_ne]

theorem mem_trgUpdStmt : .enqueue (rowSlot k) ∈ trgUpdStmt (u.watched W) ↔
    ∃ r ∈ u.updated, W.pk.map r.2 = k ∧
      ∃ o ∈ u.updated, W.pk.map o.1 = k ∧ W.refs.map r.2 ≠ W.refs.map o.1 := by
  simp only [trgUpdStmt, mem_flatMap, mem_map, mem_filter, Bool.and_eq_true,
    decide_eq_true_eq, bne_iff_ne]
  refine ⟨fun h => ?_, fun h => ?_⟩
  · obtain ⟨n, hn, o, ⟨ho, hkey, hne⟩, e⟩ := h
    obtain ⟨r, hr, rfl⟩ := mem_watched.mp hn
    obtain ⟨r', hr', rfl⟩ := mem_watched.mp ho
    have hk : W.pk.map r.2 = k := congrArg Slot.pk (Cmd.enqueue.inj e)
    exact ⟨r, hr, hk, r', hr', hkey.trans hk, hne⟩
  · obtain ⟨r, hr, rfl, o, ho, hkey, hne⟩ := h
    exact ⟨_, mem_watched.mpr ⟨r, hr, rfl⟩, _, ⟨mem_watched.mpr ⟨o, ho, rfl⟩, hkey, hne⟩, rfl⟩

/-- The announced keys are those a trigger enqueues. -/
theorem mem_enqueueTriggers : .enqueue (rowSlot k) ∈ enqueueTriggers W u ↔ u.Announces W k := by
  rw [enqueueTriggers, mem_append, mem_ite_nil_right, mem_trgPk, UpdateStmt.Announces]
  cases hm : W.mode with
  | row =>
    simp only
    rw [mem_ite_nil_right, mem_trgUpdRow]
    refine ⟨fun h => ?_, fun h => ?_⟩
    · rcases h with ⟨hs, r, hr, hk, hne⟩ | ⟨hs, r, hr, hk, hne⟩
      · exact ⟨r, hr, hk, .inl ⟨hs, hne⟩⟩
      · exact ⟨r, hr, hk, .inr ⟨hs, hne⟩⟩
    · obtain ⟨r, hr, hk, ⟨hs, hne⟩ | ⟨hs, hne⟩⟩ := h
      · exact .inl ⟨hs, r, hr, hk, hne⟩
      · exact .inr ⟨hs, r, hr, hk, hne⟩
  | statement =>
    simp only
    rw [mem_trgUpdStmt]
    refine ⟨fun h => ?_, fun h => ?_⟩
    · rcases h with ⟨hs, r, hr, hk, hne⟩ | ⟨r, hr, hk, ho⟩
      · exact ⟨r, hr, hk, .inl ⟨hs, hne⟩⟩
      · exact ⟨r, hr, hk, .inr ho⟩
    · obtain ⟨r, hr, hk, ⟨hs, hne⟩ | ho⟩ := h
      · exact .inl ⟨hs, r, hr, hk, hne⟩
      · exact .inr ⟨r, hr, hk, ho⟩

theorem enqueueTriggers_enqueues (W : WatchedColumns C) (u : UpdateStmt C Val) :
    ∀ c ∈ enqueueTriggers W u, ∃ s, c = .enqueue s := by
  intro c hc
  refine onUpdate_enqueues (T := Unit) (fun _ => none) W.mode (u.watched W) c ?_
  rcases mem_append.mp hc with hc | hc
  · exact mem_append_left _ (mem_ite_nil_right.mp hc).2
  · refine mem_append_right _ ?_
    cases hm : W.mode with
    | row =>
      rw [hm] at hc
      exact (mem_ite_nil_right.mp hc).2
    | statement =>
      rw [hm] at hc
      exact hc

/-- Queue statements that only enqueue leave a slot pending exactly if it was or is enqueued. -/
theorem sees_foldl_of_enqueues {K δ P : Type*} [DecidableEq K] {q : Queue K} {s : Slot K}
    {cs : List (Cmd K)} (h : ∀ c ∈ cs, ∃ s, c = .enqueue s) (t : Txn K δ P) :
    (cs.foldl (Txn.run q) t).sees q s = true ↔ t.sees q s = true ∨ .enqueue s ∈ cs := by
  refine ⟨fun hs => ?_, fun hs => ?_⟩
  · exact sees_foldl_inv hs
  · rcases hs with hs | hs
    · refine sees_foldl_of_spares cs t hs fun c hc => ?_
      obtain ⟨s', rfl⟩ := h c hc
      trivial
    · exact (lasting_of_mem hs h).sees q t

/-- The row's key or a referenced column differs between its old and its final version. -/
def WatchedColumns.Changed (W : WatchedColumns C) (r : (C → Val) × (C → Val)) : Prop :=
  ∃ c ∈ W.pk ++ W.refs, r.2 c ≠ r.1 c

/-- **Effective changes.** After the triggers of an `UPDATE` ran, in any transaction over any queue,
    every changed row has a pending job under its final key, if and only if each of those keys had
    one before or is announced. -/
theorem changes_enqueued_iff {δ P : Type*} (W : WatchedColumns C) (u : UpdateStmt C Val)
    (q : Queue (List Val)) (t : Txn (List Val) δ P) :
    (∀ r ∈ u.updated, W.Changed r →
      ((enqueueTriggers W u).foldl (Txn.run q) t).sees q (rowSlot (W.pk.map r.2)) = true) ↔
    ∀ r ∈ u.updated, W.Changed r →
      t.sees q (rowSlot (W.pk.map r.2)) = true ∨ u.Announces W (W.pk.map r.2) := by
  refine forall_congr' fun r => forall_congr' fun _ => forall_congr' fun _ => ?_
  rw [sees_foldl_of_enqueues (enqueueTriggers_enqueues W u), mem_enqueueTriggers]

/-! ## 3. Only the `SET` list changes rows -/

/-- Columns outside the `SET` list keep their values: no `BEFORE ROW` trigger rewrites them. -/
def UpdateStmt.Quiet (u : UpdateStmt C Val) : Prop :=
  ∀ r ∈ u.updated, ∀ c ∉ u.targets, r.2 c = r.1 c

omit [DecidableEq Val] in
theorem UpdateStmt.Quiet.map_eq (h : u.Quiet) {cols : List C} (hs : u.sets cols = false)
    {r : (C → Val) × (C → Val)} (hr : r ∈ u.updated) : cols.map r.2 = cols.map r.1 := by
  refine map_congr_left fun c hc => h r hr c ?_
  simpa using any_eq_false.mp hs c hc

/-- Then the column lists make no difference. -/
theorem enqueueTriggers_eq {T : Type*} (text : List Val → Option T) (h : u.Quiet) :
    enqueueTriggers W u = (columnTriggers text W.mode).onUpdate (u.watched W) := by
  have hpk : (if u.sets W.pk then trgPk (u.watched W) else []) = trgPk (u.watched W) := by
    split
    · rfl
    · rename_i hs
      refine (map_eq_nil_iff.mpr (filter_eq_nil_iff.mpr fun i hi => ?_)).symm
      obtain ⟨r, hr, rfl⟩ := mem_watched.mp hi
      simpa using h.map_eq (by simpa using hs) hr
  have hrow : (if u.sets W.refs then trgUpdRow (u.watched W) else []) =
      trgUpdRow (u.watched W) := by
    split
    · rfl
    · rename_i hs
      refine (map_eq_nil_iff.mpr (filter_eq_nil_iff.mpr fun i hi => ?_)).symm
      obtain ⟨r, hr, rfl⟩ := mem_watched.mp hi
      simpa using h.map_eq (by simpa using hs) hr
  rw [enqueueTriggers, hpk, hrow]
  rfl

/-- Without such triggers every changed row is announced. -/
theorem UpdateStmt.Quiet.announces (h : u.Quiet) {r : (C → Val) × (C → Val)} (hr : r ∈ u.updated)
    (hc : W.Changed r) : u.Announces W (W.pk.map r.2) := by
  rw [← mem_enqueueTriggers, enqueueTriggers_eq (fun _ => (none : Option Unit)) h]
  refine onUpdate_mem (i := ⟨W.pk.map r.1, W.refs.map r.1, W.pk.map r.2, W.refs.map r.2⟩)
    (fun _ => (none : Option Unit)) W.mode (mem_watched.mpr ⟨r, hr, rfl⟩) fun hs => ?_
  obtain ⟨c, hc, hne⟩ := hc
  rcases mem_append.mp hc with hc | hc
  · exact hne (map_inj_left.mp hs.1 c hc).symm
  · exact hne (map_inj_left.mp (eq_of_beq hs.2) c hc)

end Model

/-! ## 4. Two silent changes -/

section Examples

inductive DocCol where
  | id
  | body
  | note
deriving DecidableEq

/-- Row 1 with body 10, as `UPDATE docs SET note = 20` finds it. -/
def noteUpdate (before : BeforeTrigger DocCol Nat) : UpdateStmt DocCol Nat where
  targets := [.note]
  assign := fun _ _ => 20
  before := [before]
  rows := [fun
    | .id => 1
    | .body => 10
    | .note => 0]

/-- A trigger that copies the note into the body. -/
def copyNote : BeforeTrigger DocCol Nat := fun _ new => some fun
  | .body => new .note
  | c => new c

/-- A trigger that takes the key from the note. -/
def rekeyByNote : BeforeTrigger DocCol Nat := fun _ new => some fun
  | .id => new .note
  | c => new c

/-- **Silent changes.** In row mode a `BEFORE ROW` trigger changes the source, in either mode one
    changes the key, and after the generated triggers no job is pending for the row. -/
theorem silent_change_reachable :
    (∃ r ∈ (noteUpdate copyNote).updated,
      (⟨[.id], [.body], .row⟩ : WatchedColumns DocCol).Changed r ∧
      ((enqueueTriggers ⟨[.id], [.body], .row⟩ (noteUpdate copyNote)).foldl (Txn.run .empty)
        (Txn.fresh : Txn (List Nat) Unit Unit)).sees .empty (rowSlot [r.2 .id]) = false) ∧
    ∃ r ∈ (noteUpdate rekeyByNote).updated,
      (⟨[.id], [.body], .statement⟩ : WatchedColumns DocCol).Changed r ∧
      ((enqueueTriggers ⟨[.id], [.body], .statement⟩ (noteUpdate rekeyByNote)).foldl
        (Txn.run .empty) (Txn.fresh : Txn (List Nat) Unit Unit)).sees .empty
          (rowSlot [r.2 .id]) = false := by
  refine ⟨⟨_, mem_singleton.mpr rfl, ⟨.body, by simp, by decide⟩, by decide⟩,
    ⟨_, mem_singleton.mpr rfl, ⟨.id, by simp, by decide⟩, by decide⟩⟩

end Examples

end Postvec
