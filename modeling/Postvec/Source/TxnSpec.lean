import Postvec.Source.Txn

/-!
# What a statement leaves in a transaction

The lemmas the machines over `Source/Txn.lean` are proved from, none of which mentions a worker.
`RowTriggers` is what a column-mode entry needs from its triggers, that every row a statement leaves
under another key or with distinct columns is enqueued under its key and stays so; for such triggers
`exec_cases` says what a statement can have done to a key the transaction holds.

Columns are compared as the triggers do it, by `IS DISTINCT FROM`: `==` on the watched columns says
that they are not distinct. It need not be equality: a `numeric` 1.00 is not distinct from 1.0, and
renders to another text. `Rendered` is what has to be asked of an `UPDATE` for that.
-/

namespace Postvec

open Machine List Option

variable {K δ P : Type*} {k : K}

/-! ## 1. What a transaction sees and holds -/

variable {t : Txn K δ P} {view : Table K (Row δ P)} {chs : List (Chg K δ)} {x : Nat}
  {rows : Table K (Row δ P)}

theorem mem_images {i : Image K δ} :
    i ∈ images view chs ↔
      ∃ c ∈ chs, ∃ r, view.get c.old = some r ∧ i = ⟨c.old, r.doc, c.new, c.doc⟩ := by
  simp only [images, mem_filterMap, map_eq_some_iff, @eq_comm _ i]

theorem mem_docsAt {ks : List K} (h : k ∈ (docsAt view ks).map Prod.fst) : k ∈ ks := by
  obtain ⟨a, ha, rfl⟩ := List.mem_map.mp h
  obtain ⟨k', hk', e⟩ := mem_filterMap.mp ha
  obtain ⟨r, -, rfl⟩ := map_eq_some_iff.mp e
  exact hk'

theorem mem_docsAt_of_get {ks : List K} {r : Row δ P} (hk : k ∈ ks) (hr : view.get k = some r) :
    (k, r.doc) ∈ docsAt view ks :=
  mem_filterMap.mpr ⟨k, hk, by rw [hr]; rfl⟩

theorem images_of_notMem (hk : k ∉ (Stmt.update chs).keys) :
    ∀ i ∈ images view chs, i.oldKey ≠ k ∧ i.newKey ≠ k := by
  intro i hi
  obtain ⟨c, hc, r, -, rfl⟩ := mem_images.mp hi
  simp only [Stmt.keys, mem_append, not_or] at hk
  exact ⟨fun e => hk.1 (e ▸ List.mem_map_of_mem hc), fun e => hk.2 (e ▸ List.mem_map_of_mem hc)⟩

/-- The view of a transaction under a key it holds depends on the committed row only through an
    update in place. -/
theorem table_get_held {p : Priv δ P} (h : t.mine.get k = some p) :
    (t.table x rows).get k = p.apply x ((if t.trunc then Table.empty else rows).get k) :=
  Table.get_overlay_some h

theorem table_get_free (h : t.mine.get k = none) :
    (t.table x rows).get k = (if t.trunc then Table.empty else rows).get k :=
  Table.get_overlay_none h

/-- The view under a key the transaction has written depends only on the committed row of the
    key. -/
theorem table_get_congr {rows' : Table K (Row δ P)} (hk : t.trunc = true ∨ t.mine.get k ≠ none)
    (h : t.mine.get k ≠ none → rows'.get k = rows.get k) :
    (t.table x rows').get k = (t.table x rows).get k := by
  cases hp : t.mine.get k with
  | none => rw [table_get_free hp, table_get_free hp, if_pos (hk.resolve_right (not_not.mpr hp)),
      if_pos (hk.resolve_right (not_not.mpr hp))]
  | some p =>
    rw [table_get_held hp, table_get_held hp]
    split
    · rfl
    · rw [h (by rw [hp]; exact some_ne_none _)]

/-- A row under a key the transaction does not hold is the committed one. -/
theorem row_of_free {r : Row δ P} (h : t.mine.get k = none) (hr : (t.table x rows).get k = some r) :
    t.trunc = false ∧ rows.get k = some r := by
  rw [table_get_free h] at hr
  cases htr : t.trunc with
  | true =>
    rw [htr] at hr
    cases hr
  | false =>
    rw [htr] at hr
    exact ⟨rfl, hr⟩

variable {db db' : Db K δ P} {st : Stmt K δ}

/-- A transaction that has not written the table holds no key. -/
theorem Txn.mine_of_wrote (h : t.wrote = false) (k : K) : t.mine.get k = none := by
  simp only [Txn.wrote, Bool.or_eq_false_iff, Bool.not_eq_false', List.isEmpty_iff] at h
  by_contra hk
  obtain ⟨p, hp⟩ := ne_none_iff_exists'.mp hk
  have := t.mine.complete k p hp
  rw [h.2] at this
  cases this

/-- What the other transactions do not hold when a statement runs. -/
theorem of_not_locked {y : Nat}
    (h : db.locked x st = false) (hy : db.txns.get y = some t) (hxy : y ≠ x) :
    t.trunc = false ∧ (st = .truncate → ∀ k, t.mine.get k = none) ∧
      ∀ k ∈ st.keys, t.mine.get k = none := by
  have h' := Table.any_eq_false_iff.mp h y t hy
  simp only [hxy, ne_eq, not_false_eq_true, decide_true, Bool.true_and, Bool.or_eq_false_iff] at h'
  refine ⟨h'.1, ?_, ?_⟩
  · intro e k
    subst e
    exact t.mine_of_wrote h'.2 k
  · intro k hk
    cases st with
    | truncate => cases hk
    | insert | update | delete => simpa using List.any_eq_false.mp h'.2 k hk

/-- What row and table locks give, over every run: the transactions hold disjoint keys, and while
    one has truncated the table no other has written it. -/
structure Db.Locks (db : Db K δ P) : Prop where
  apart : ∀ x y t t', db.txns.get x = some t → db.txns.get y = some t' → x ≠ y →
    ∀ k, t.mine.get k = none ∨ t'.mine.get k = none
  alone : ∀ x y t t', db.txns.get x = some t → db.txns.get y = some t' → x ≠ y →
    t.trunc = true → t'.trunc = false ∧ ∀ k, t'.mine.get k = none

/-- A key one transaction holds, another neither holds nor has truncated. -/
theorem Db.Locks.free {u : Txn K δ P} {y : Nat} (h : db.Locks) (hx : db.txns.get x = some t)
    (hy : db.txns.get y = some u) (hxy : x ≠ y) (hk : u.mine.get k ≠ none) :
    t.trunc = false ∧ t.mine.get k = none := by
  refine ⟨?_, (h.apart x y t u hx hy hxy k).resolve_right hk⟩
  by_contra htr
  exact hk ((h.alone x y t u hx hy hxy (Bool.not_eq_false _ ▸ htr)).2 k)

theorem Db.Locks.mono (h : db.Locks)
    (htx : ∀ x t, db'.txns.get x = some t → db.txns.get x = some t) : db'.Locks where
  apart := fun x y t t' hx hy => h.apart x y t t' (htx x t hx) (htx y t' hy)
  alone := fun x y t t' hx hy => h.alone x y t t' (htx x t hx) (htx y t' hy)

theorem Db.Locks.begin (h : db.Locks) :
    ({ db with
        txns := db.txns.put db.nextXid .fresh, nextXid := db.nextXid + 1 } : Db K δ P).Locks := by
  refine ⟨?_, ?_⟩
  · intro x y t t' hx hy hxy k
    rcases Table.get_put_some hx with ⟨-, rfl⟩ | hx
    · exact .inl rfl
    rcases Table.get_put_some hy with ⟨-, rfl⟩ | hy
    · exact .inr rfl
    exact h.apart x y t t' hx hy hxy k
  · intro x y t t' hx hy hxy htr
    rcases Table.get_put_some hx with ⟨-, rfl⟩ | hx
    · cases htr
    rcases Table.get_put_some hy with ⟨-, rfl⟩ | hy
    · exact ⟨rfl, fun _ => rfl⟩
    exact h.alone x y t t' hx hy hxy htr

variable [DecidableEq K]

/-! ## 2. Assignments -/

theorem get_putAll_of_notMem {V : Type*} : ∀ (as : List (K × V)) (t : Table K V),
    k ∉ as.map Prod.fst → (putAll t as).get k = t.get k
  | [], _, _ => rfl
  | a :: as, t, h => by
    simp only [map_cons, mem_cons, not_or] at h
    rw [putAll, Table.get_put, if_neg h.1]
    exact get_putAll_of_notMem as t h.2

theorem get_putAll_append {V : Type*} {v : V} : ∀ (as bs : List (K × V)) (t : Table K V),
    (putAll t (as ++ bs)).get k = some v → (k, v) ∈ as ∨
      (k ∉ as.map Prod.fst ∧ (putAll t bs).get k = some v)
  | [], _, _, h => .inr ⟨by simp, h⟩
  | a :: as, bs, t, h => by
    rw [cons_append, putAll, Table.get_put] at h
    by_cases hk : k = a.1
    · rw [if_pos hk] at h
      cases h
      exact .inl (hk ▸ mem_cons_self)
    · rw [if_neg hk] at h
      rcases get_putAll_append as bs t h with hm | ⟨hn, ht⟩
      · exact .inl (mem_cons_of_mem _ hm)
      · refine .inr ⟨?_, ht⟩
        simp only [map_cons, mem_cons, not_or]
        exact ⟨hk, hn⟩

theorem get_putAll_mem {V : Type*} {v : V} (as : List (K × V)) (t : Table K V)
    (h : (putAll t as).get k = some v) : (k, v) ∈ as ∨ (k ∉ as.map Prod.fst ∧ t.get k = some v) :=
  get_putAll_append as [] t (by rwa [append_nil])

theorem get_putAll_isSome {V : Type*} : ∀ (as : List (K × V)) (t : Table K V),
    k ∈ as.map Prod.fst → (putAll t as).get k ≠ none
  | [], _, h => by cases h
  | a :: as, t, h => by
    rw [putAll, Table.get_put]
    split
    · exact some_ne_none _
    · rename_i hne
      rcases mem_cons.mp h with h | h
      · exact absurd h hne
      · exact get_putAll_isSome as t h

/-! ## 3. Queue statements inside a transaction -/

/-- A property that a statement adds for good, over a list of statements. -/
theorem foldl_adds {T C A : Type*} {run : T → C → T} {I : T → Prop} {make : A → C} {adds : A → Prop}
    (hrun : ∀ t c, I (run t c) ↔ I t ∨ ∃ p, c = make p ∧ adds p) : ∀ (cs : List C) (t : T),
    I (cs.foldl run t) ↔ I t ∨ ∃ p, make p ∈ cs ∧ adds p
  | [], t => by simp
  | c :: cs, t => by
    rw [foldl_cons, foldl_adds hrun cs, hrun]
    refine ⟨?_, ?_⟩
    · intro h
      rcases h with (h | ⟨p, rfl, hp⟩) | ⟨p, hm, hp⟩
      · exact .inl h
      · exact .inr ⟨p, mem_cons_self, hp⟩
      · exact .inr ⟨p, mem_cons_of_mem _ hm, hp⟩
    · intro h
      rcases h with h | ⟨p, hm, hp⟩
      · exact .inl (.inl h)
      · rcases mem_cons.mp hm with rfl | hm
        · exact .inl (.inr ⟨p, rfl, hp⟩)
        · exact .inr ⟨p, hm, hp⟩

section Commands

variable {q : Queue K} {s : Slot K}

theorem sees_iff : t.sees q s = true ↔
    s ∈ t.own ∨ ∃ j ∈ q.jobs, j.claimed = false ∧ j.slot = s ∧ j.id ∉ t.dropped := by
  simp only [Txn.sees, Bool.or_eq_true, contains_iff_mem, List.any_eq_true, Bool.and_eq_true,
    Bool.not_eq_true', decide_eq_true_eq, and_assoc]
  simp

theorem sees_mono {q' : Queue K} (h : t.sees q s = true)
    (hq : ∀ j ∈ q.jobs, j.claimed = false → j.slot = s → j.id ∉ t.dropped → j ∈ q'.jobs) :
    t.sees q' s = true := by
  rcases sees_iff.mp h with ho | ⟨j, hj, hp, hs, hd⟩
  · exact sees_iff.mpr (.inl ho)
  · exact sees_iff.mpr (.inr ⟨j, hq j hj hp hs hd, hp, hs, hd⟩)

/-- Queue statements do not touch the rows. -/
theorem run_frame (q : Queue K) (t : Txn K δ P) (c : Cmd K) :
    (t.run q c).mine = t.mine ∧ (t.run q c).trunc = t.trunc := by
  cases c with
  | enqueue s => simp only [Txn.run]; split <;> exact ⟨rfl, rfl⟩
  | deleteJobs | deleteDead | cutChunks => exact ⟨rfl, rfl⟩

theorem foldl_run_frame (q : Queue K) : ∀ (cs : List (Cmd K)) (t : Txn K δ P),
    (cs.foldl (Txn.run q) t).mine = t.mine ∧ (cs.foldl (Txn.run q) t).trunc = t.trunc
  | [], _ => ⟨rfl, rfl⟩
  | c :: cs, t => by
    rw [foldl_cons, (foldl_run_frame q cs _).1, (foldl_run_frame q cs _).2]
    exact run_frame q t c

/-- A queue statement does not delete pending jobs of the slot. -/
def Cmd.spares (s : Slot K) : Cmd K → Prop
  | .deleteJobs p => p s false = false
  | _ => True

/-- After the queue statements the slot has been enqueued, and not deleted again. -/
def Lasting (cs : List (Cmd K)) (s : Slot K) : Prop :=
  ∃ pre post, cs = pre ++ .enqueue s :: post ∧ ∀ c ∈ post, c.spares s

theorem sees_enqueue (q : Queue K) (t : Txn K δ P) (s : Slot K) :
    (t.run q (.enqueue s)).sees q s = true := by
  by_cases h : t.sees q s = true
  · rw [Txn.run, if_pos h]
    exact h
  · rw [Txn.run, if_neg h]
    exact sees_iff.mpr (.inl (by simp))

variable {c : Cmd K} {i : Nat} {j : Job K} {cs : List (Cmd K)}

theorem mem_own_run (hs : s ∈ t.own) (hc : c.spares s) : s ∈ (t.run q c).own := by
  cases c with
  | enqueue s' =>
    simp only [Txn.run]
    split
    · exact hs
    · exact mem_append_left _ hs
  | deleteJobs p =>
    have hp : p s false = false := hc
    simp [Txn.run, hs, hp]
  | deleteDead | cutChunks => exact hs

theorem mem_dropped_run : i ∈ (t.run q c).dropped ↔ i ∈ t.dropped ∨
    ∃ p, c = .deleteJobs p ∧ ∃ j ∈ q.jobs, p j.slot j.claimed = true ∧ j.id = i := by
  cases c with
  | enqueue s' =>
    simp only [Txn.run]
    split <;> simp
  | deleteJobs p => simp [Txn.run, and_assoc]
  | deleteDead | cutChunks => simp [Txn.run]

/-- The jobs a transaction's queue statements delete. -/
theorem mem_dropped_foldl (cs : List (Cmd K)) (t : Txn K δ P) :
    i ∈ (cs.foldl (Txn.run q) t).dropped ↔ i ∈ t.dropped ∨
      ∃ p, .deleteJobs p ∈ cs ∧ ∃ j ∈ q.jobs, p j.slot j.claimed = true ∧ j.id = i :=
  foldl_adds (I := fun t => i ∈ t.dropped) (fun _ _ => mem_dropped_run) cs t

theorem mem_droppedDead_run : j ∈ (t.run q c).droppedDead ↔
    j ∈ t.droppedDead ∨ ∃ p, c = .deleteDead p ∧ j ∈ q.dead ∧ p j.slot = true := by
  cases c with
  | enqueue s' =>
    simp only [Txn.run]
    split <;> simp
  | deleteJobs | deleteDead | cutChunks => simp [Txn.run]

/-- The dead jobs a transaction's queue statements delete. -/
theorem mem_droppedDead_foldl (cs : List (Cmd K)) (t : Txn K δ P) :
    j ∈ (cs.foldl (Txn.run q) t).droppedDead ↔ j ∈ t.droppedDead ∨
      ∃ p, .deleteDead p ∈ cs ∧ j ∈ q.dead ∧ p j.slot = true :=
  foldl_adds (I := fun t => j ∈ t.droppedDead) (fun _ _ => mem_droppedDead_run) cs t

theorem sees_run (h : t.sees q s = true) (hc : c.spares s) :
    (t.run q c).sees q s = true := by
  rcases sees_iff.mp h with h | ⟨j, hj, hp, hs, hd⟩
  · exact sees_iff.mpr (.inl (mem_own_run h hc))
  · refine sees_iff.mpr (.inr ⟨j, hj, hp, hs, fun hm => ?_⟩)
    rcases mem_dropped_run.mp hm with hm | ⟨p, rfl, j', hj', hp', e⟩
    · exact hd hm
    · -- ids are unique: the deleted job is `j` itself, which the deletion spares
      have ej : j' = j := q.eq_of_id hj' hj e
      rw [ej, hs, hp] at hp'
      rw [show p s false = false from hc] at hp'
      cases hp'

theorem sees_foldl_of_spares : ∀ (cs : List (Cmd K)) (t : Txn K δ P), t.sees q s = true →
    (∀ c ∈ cs, c.spares s) → (cs.foldl (Txn.run q) t).sees q s = true
  | [], _, h, _ => h
  | c :: cs, t, h, hc => by
    rw [foldl_cons]
    exact sees_foldl_of_spares cs _ (sees_run h (hc c mem_cons_self))
      fun c' hc' => hc c' (mem_cons_of_mem _ hc')

omit [DecidableEq K] in
theorem lasting_of_mem (h : .enqueue s ∈ cs)
    (hall : ∀ c ∈ cs, ∃ s, c = .enqueue s) : Lasting cs s := by
  obtain ⟨pre, post, rfl⟩ := append_of_mem h
  refine ⟨pre, post, rfl, fun c hc => ?_⟩
  obtain ⟨s', rfl⟩ := hall c (mem_append_right _ (mem_cons_of_mem _ hc))
  trivial

/-- A slot that was enqueued and not deleted again is seen afterwards. -/
theorem Lasting.sees (h : Lasting cs s) (q : Queue K) (t : Txn K δ P) :
    (cs.foldl (Txn.run q) t).sees q s = true := by
  obtain ⟨pre, post, rfl, hpost⟩ := h
  rw [foldl_append, foldl_cons]
  exact sees_foldl_of_spares post _ (sees_enqueue q _ s) hpost

end Commands

/-! ## 4. Triggers of a column-mode entry -/

/-- A queue statement deletes no job and no dead job of the key. -/
def Cmd.leaves (k : K) : Cmd K → Prop
  | .deleteJobs p => ∀ s c, s.pk = k → p s c = false
  | .deleteDead p => ∀ s, s.pk = k → p s = false
  | _ => True

/-- A key whose jobs a statement leaves alone keeps its uncommitted jobs. -/
theorem mem_own_foldl_of_leaves {q : Queue K} {s : Slot K} : ∀ (cs : List (Cmd K)) (t : Txn K δ P),
    (∀ c ∈ cs, c.leaves s.pk) → s ∈ t.own → s ∈ (cs.foldl (Txn.run q) t).own
  | [], _, _, hs => hs
  | c :: cs, t, hc, hs => by
    rw [foldl_cons]
    refine mem_own_foldl_of_leaves cs _ (fun c' hc' => hc c' (mem_cons_of_mem _ hc')) ?_
    refine mem_own_run hs ?_
    have hl := hc c mem_cons_self
    cases c with
    | deleteJobs p => exact hl s false rfl
    | enqueue | deleteDead | cutChunks => trivial

variable {q : Queue K}

theorem notMem_dropped_foldl_of_leaves {j : Job K} (hj : j ∈ q.jobs)
    {cs : List (Cmd K)} (hc : ∀ c ∈ cs, c.leaves j.slot.pk)
    (hd : j.id ∉ t.dropped) : j.id ∉ (cs.foldl (Txn.run q) t).dropped := by
  intro hm
  rcases (mem_dropped_foldl cs t).mp hm with hm | ⟨p, hp, j', hj', hpj, e⟩
  · exact hd hm
  · rw [q.eq_of_id hj' hj e] at hpj
    have hl : p j.slot j.claimed = false := hc _ hp j.slot j.claimed rfl
    rw [hl] at hpj
    cases hpj

/-- An updated row that kept its key, with watched columns that are not distinct from the old
    ones. -/
def Image.Same [BEq δ] (i : Image K δ) : Prop := i.oldKey = i.newKey ∧ (i.newDoc == i.oldDoc) = true

/-- Rows the triggers take for unchanged render what they rendered. -/
def Rendered [BEq δ] {X : Type*} (text : δ → X) (imgs : List (Image K δ)) : Prop :=
  ∀ i ∈ imgs, i.Same → text i.newDoc = text i.oldDoc

/-- The condition on a writer's step that its `UPDATE` does so. -/
def Db.alike [BEq δ] {X : Type*} [DecidableEq X] (text : δ → X) (db : Db K δ P) :
    WriterAct K δ → Bool
  | .exec x (.update chs) => (db.txns.get x).all fun t =>
    (images (t.table x db.rows) chs).all fun i =>
      decide (i.oldKey ≠ i.newKey) || i.newDoc != i.oldDoc || decide (text i.newDoc = text i.oldDoc)
  | _ => true

theorem rendered_of_alike [BEq δ] {X : Type*} [DecidableEq X] {text : δ → X}
    (h : db.alike text (.exec x st) = true) (hx : db.txns.get x = some t) (chs : List (Chg K δ))
    (hst : st = .update chs) : Rendered text (images (t.table x db.rows) chs) := by
  subst hst
  intro i hi hs
  simp only [Db.alike, hx, Option.all_some, List.all_eq_true] at h
  simpa [hs.1, bne, hs.2] using h i hi

/-- What column-mode triggers do: a row inserted with a text, and a row updated to another key or
    distinct columns, is enqueued under its new key; keys the statement does not change keep their
    jobs. `adm` is what the triggers assume of an `UPDATE`. -/
structure RowTriggers [BEq δ] {T : Type*} (text : δ → Option T) (adm : List (Image K δ) → Prop)
    (trg : Triggers K δ) : Prop where
  insert_lasts : ∀ rows k d, (k, d) ∈ rows → text d ≠ none →
    Lasting (trg.onInsert rows) (rowSlot k)
  insert_leaves : ∀ rows k, k ∉ rows.map Prod.fst → ∀ c ∈ trg.onInsert rows, c.leaves k
  update_lasts : ∀ imgs, adm imgs → ∀ i ∈ imgs, i.Same ∨
    Lasting (trg.onUpdate imgs) (rowSlot i.newKey)
  update_leaves : ∀ imgs, adm imgs → ∀ k, (∀ i ∈ imgs, (i.oldKey ≠ k ∧ i.newKey ≠ k) ∨ i.Same) →
    ∀ c ∈ trg.onUpdate imgs, c.leaves k
  delete_leaves : ∀ ds k, k ∉ ds.map Prod.fst → ∀ c ∈ trg.onDelete ds, c.leaves k

/-- The conditions of an `UPDATE`, one by one. -/
theorem ok_update (h : (Stmt.update chs).ok view = true) :
    (chs.map Chg.old).Nodup ∧ (chs.map Chg.new).Nodup ∧
      ∀ c ∈ chs, ∃ r, view.get c.old = some r := by
  simp only [Stmt.ok, Bool.and_eq_true, decide_eq_true_eq, List.all_eq_true] at h
  exact ⟨h.1.1, h.1.2, fun c hc => isSome_iff_exists.mp (h.2 c hc).1⟩

/-- Where a row keeps its key and its columns, no other row of the statement has the key. -/
theorem images_of_same [BEq δ] (hok : (Stmt.update chs).ok view = true) {c : Chg K δ} {r : Row δ P}
    (hc : c ∈ chs) (hr : view.get c.old = some r)
    (hs : Image.Same ⟨c.old, r.doc, c.new, c.doc⟩) :
    ∀ i ∈ images view chs, (i.oldKey ≠ c.new ∧ i.newKey ≠ c.new) ∨ i.Same := by
  obtain ⟨hold, hnew, -⟩ := ok_update hok
  intro i hi
  obtain ⟨c', hc', r', hr', rfl⟩ := mem_images.mp hi
  by_cases ho : c'.old = c.new
  · have e : c' = c := inj_on_of_nodup_map hold hc' hc (ho.trans hs.1.symm)
    subst e
    rw [hr] at hr'
    cases hr'
    exact .inr hs
  · by_cases hn : c'.new = c.new
    · have e : c' = c := inj_on_of_nodup_map hnew hc' hc hn
      exact absurd (e ▸ hs.1) ho
    · exact .inl ⟨ho, hn⟩

section Exec

variable [Inhabited P] {T : Type*} {text : δ → Option T} {adm : List (Image K δ) → Prop}
  {trg : Triggers K δ} {p : Priv δ P}

theorem mine_exec (t : Txn K δ P) (st : Stmt K δ) :
    (t.exec trg x db st).mine = (t.write x db.rows st).mine :=
  (foldl_run_frame ..).1

theorem trunc_exec (t : Txn K δ P) (st : Stmt K δ) :
    (t.exec trg x db st).trunc = (t.write x db.rows st).trunc :=
  (foldl_run_frame ..).2

/-- Before its triggers a statement other than `TRUNCATE` changes only the rows. -/
theorem write_frame (t : Txn K δ P) (x : Nat) (rows : Table K (Row δ P)) (hst : st ≠ .truncate) :
    (t.write x rows st).trunc = t.trunc ∧ (t.write x rows st).own = t.own ∧
    (t.write x rows st).dropped = t.dropped ∧
    (t.write x rows st).droppedDead = t.droppedDead ∧ (t.write x rows st).cut = t.cut := by
  cases st with
  | truncate => exact absurd rfl hst
  | insert | update | delete => exact ⟨rfl, rfl, rfl, rfl, rfl⟩

theorem trunc_exec_of_ne (hst : st ≠ .truncate) : (t.exec trg x db st).trunc = t.trunc :=
  (trunc_exec t st).trans (write_frame t x db.rows hst).1

/-- A key whose jobs a statement leaves alone keeps what it relied on. -/
theorem leaves_exec (trg : Triggers K δ) (hst : st ≠ .truncate)
    (hl : ∀ c ∈ trg.fire (t.table x db.rows) st, c.leaves k) :
    (rowSlot k ∈ t.own → rowSlot k ∈ (t.exec trg x db st).own) ∧
    (∀ j ∈ db.queue.jobs, j.slot.pk = k → j.id ∉ t.dropped →
      j.id ∉ (t.exec trg x db st).dropped) ∧
    ∀ d, d.slot.pk = k → d ∉ t.droppedDead → d ∉ (t.exec trg x db st).droppedDead := by
  obtain ⟨-, wown, wdr, wdd, -⟩ := write_frame t x db.rows hst
  refine ⟨fun ho => ?_, fun j hj hjk hn => ?_, fun d hdk hn hm => ?_⟩
  · exact mem_own_foldl_of_leaves _ _ hl (by rw [wown]; exact ho)
  · exact notMem_dropped_foldl_of_leaves hj (hjk ▸ hl) (by rw [wdr]; exact hn)
  · rcases (mem_droppedDead_foldl _ _).mp hm with hm | ⟨p, hp, -, hpd⟩
    · exact hn (wdd ▸ hm)
    · have := hl _ hp d.slot hdk
      rw [hpd] at this
      cases this

/-- The keys of a statement's private changes are its keys. -/
theorem mem_writes : k ∈ (t.writes x view st).map Prod.fst ↔ k ∈ st.keys := by
  cases st with
  | truncate => exact Iff.rfl
  | insert | delete => simp [Txn.writes, Stmt.keys]
  | update => simp [Txn.writes, Stmt.keys, or_comm]

theorem mine_exec_eq (hst : st ≠ .truncate) :
    (t.exec trg x db st).mine = putAll t.mine (t.writes x (t.table x db.rows) st) := by
  rw [mine_exec]
  cases st with
  | truncate => exact absurd rfl hst
  | insert | update | delete => rfl

omit [DecidableEq K] [Inhabited P] in
theorem ne_truncate_of_mem (hk : k ∈ st.keys) : st ≠ .truncate := by
  intro e
  rw [e] at hk
  cases hk

/-- A statement's keys are held afterwards. -/
theorem mine_exec_of_mem (hk : k ∈ st.keys) : (t.exec trg x db st).mine.get k ≠ none := by
  rw [mine_exec_eq (ne_truncate_of_mem hk)]
  exact get_putAll_isSome _ _ (mem_writes.mpr hk)

theorem mine_exec_of_notMem (hst : st ≠ .truncate) (hk : k ∉ st.keys) :
    (t.exec trg x db st).mine.get k = t.mine.get k := by
  rw [mine_exec_eq hst]
  exact get_putAll_of_notMem _ _ (mt mem_writes.mp hk)

/-- The keys a transaction holds after a statement are those it held and those of the statement. -/
theorem mine_exec_keys (h : (t.exec trg x db st).mine.get k = some p) :
    t.mine.get k = some p ∨ k ∈ st.keys := by
  by_cases hst : st = .truncate
  · rw [mine_exec, hst] at h
    cases h
  · by_cases hk : k ∈ st.keys
    · exact .inr hk
    · exact .inl ((mine_exec_of_notMem hst hk).symm.trans h)

/-- How the private change under a key of a statement came about. -/
inductive Txn.Written (t : Txn K δ P) (x : Nat) (view : Table K (Row δ P)) (k : K) :
    Stmt K δ → Priv δ P → Prop where
  | inserted {rows : List (K × δ)} {d : δ} (h : (k, d) ∈ rows) (hv : view.get k = none) :
    Written t x view k (.insert rows) (.replaced (some ⟨d, default, x⟩))
  | deleted {ks : List K} {r : Row δ P} (hk : k ∈ ks) (hr : view.get k = some r) :
    Written t x view k (.delete ks) (.replaced none)
  | left {chs : List (Chg K δ)} {c : Chg K δ} {r : Row δ P} (hc : c ∈ chs)
    (hr : view.get c.old = some r) (e : c.old = k) (hn : k ∉ chs.map Chg.new) :
    Written t x view k (.update chs) (.replaced none)
  | changed {chs : List (Chg K δ)} {c : Chg K δ} {r : Row δ P} (hc : c ∈ chs)
    (hr : view.get c.old = some r) (e : c.new = k) :
    Written t x view k (.update chs) (t.changed x view c)

theorem exec_written (hok : st.ok (t.table x db.rows) = true) (hk : k ∈ st.keys)
    (h : (t.exec trg x db st).mine.get k = some p) : t.Written x (t.table x db.rows) k st p := by
  rw [mine_exec_eq (ne_truncate_of_mem hk)] at h
  cases st with
  | truncate => cases hk
  | insert rows =>
    simp only [Stmt.ok, Bool.and_eq_true, List.all_eq_true] at hok
    rcases get_putAll_mem _ _ h with hm | ⟨hn, -⟩
    · obtain ⟨r, hr, e⟩ := List.mem_map.mp hm
      cases e
      exact .inserted hr (isNone_iff_eq_none.mp (hok.2 _ hr))
    · exact absurd (mem_writes.mpr hk) hn
  | delete ks =>
    simp only [Stmt.ok, Bool.and_eq_true, List.all_eq_true] at hok
    rcases get_putAll_mem _ _ h with hm | ⟨hn, -⟩
    · obtain ⟨k', -, e⟩ := List.mem_map.mp hm
      cases e
      obtain ⟨r, hr⟩ := isSome_iff_exists.mp (hok.2 k hk)
      exact .deleted hk hr
    · exact absurd (mem_writes.mpr hk) hn
  | update chs =>
    obtain ⟨-, -, hrows⟩ := ok_update hok
    rcases get_putAll_append _ _ _ h with hm | ⟨hn, hm⟩
    · obtain ⟨c, hc, e⟩ := List.mem_map.mp hm
      cases e
      obtain ⟨r, hr⟩ := hrows c hc
      exact .changed hc hr rfl
    · have hnew : k ∉ chs.map Chg.new := by simpa using hn
      rcases get_putAll_mem _ _ hm with hm | ⟨hn', -⟩
      · obtain ⟨c, hc, e⟩ := List.mem_map.mp hm
        cases e
        obtain ⟨r, hr⟩ := hrows c hc
        exact .left hc hr rfl hnew
      · exact absurd ((mem_append.mp hk).resolve_right hnew) (by simpa using hn')

omit [DecidableEq K] [Inhabited P] in
/-- The triggers of a statement leave the jobs of keys it does not write. -/
theorem RowTriggers.fire_leaves [BEq δ] (hT : RowTriggers text adm trg) (hst : st ≠ .truncate)
    (hadm : ∀ chs, st = .update chs → adm (images view chs)) (hk : k ∉ st.keys) :
    ∀ c ∈ trg.fire view st, c.leaves k := by
  cases st with
  | truncate => exact absurd rfl hst
  | insert rows => exact hT.insert_leaves rows k hk
  | delete ks => exact hT.delete_leaves _ k fun hm => hk (mem_docsAt hm)
  | update chs =>
    exact hT.update_leaves _ (hadm chs rfl) k fun i hi => .inl (images_of_notMem hk i hi)

/-- **What a statement does to a key.** The key is as before and keeps its jobs; or it is enqueued
    and stays so; or it has no row; or a row without a text was put there; or its row was updated
    in place with the text it had. -/
theorem exec_cases [BEq δ] (hT : RowTriggers text adm trg)
    (hok : st.ok (t.table x db.rows) = true) (hst : st ≠ .truncate)
    (hadm : ∀ chs, st = .update chs → adm (images (t.table x db.rows) chs))
    (hren : ∀ chs, st = .update chs → Rendered text (images (t.table x db.rows) chs))
    (h : (t.exec trg x db st).mine.get k = some p) :
    (t.mine.get k = some p ∧ k ∉ st.keys ∧ ∀ c ∈ trg.fire (t.table x db.rows) st, c.leaves k) ∨
    (t.exec trg x db st).sees db.queue (rowSlot k) = true ∨
    p = .replaced none ∨
    (∃ d, p = .replaced (some ⟨d, default, x⟩) ∧ text d = none ∧ (t.table x db.rows).get k = none ∧
      ∃ rows, st = .insert rows ∧ (k, d) ∈ rows) ∨
    (∃ r d, (t.table x db.rows).get k = some r ∧ text d = text r.doc ∧
      p = t.changed x (t.table x db.rows) ⟨k, k, d⟩ ∧
      ∀ c ∈ trg.fire (t.table x db.rows) st, c.leaves k) := by
  by_cases hk : k ∈ st.keys
  · cases exec_written hok hk h with
    | @inserted rows d hr hv =>
      by_cases hd : text d = none
      · exact .inr (.inr (.inr (.inl ⟨d, rfl, hd, hv, rows, rfl, hr⟩)))
      · exact .inr (.inl ((hT.insert_lasts rows k d hr hd).sees _ _))
    | deleted | left => exact .inr (.inr (.inl rfl))
    | @changed chs c r hc hr e =>
      subst e
      have hi := mem_images.mpr ⟨c, hc, r, hr, rfl⟩
      rcases hT.update_lasts _ (hadm chs rfl) _ hi with hs | hl
      · -- the row kept its key, and its columns as far as the triggers see
        have hold : c.old = c.new := hs.1
        have hcc : c = ⟨c.new, c.new, c.doc⟩ := by
          obtain ⟨o, n, d⟩ := c
          simpa using hold
        exact .inr (.inr (.inr (.inr ⟨r, c.doc, hold ▸ hr, hren chs rfl _ hi hs, congrArg _ hcc,
          hT.update_leaves _ (hadm chs rfl) _ (images_of_same hok hc hr hs)⟩)))
      · exact .inr (.inl (hl.sees _ _))
  · exact .inl ⟨(mine_exec_of_notMem hst hk).symm.trans h, hk, hT.fire_leaves hst hadm hk⟩

/-! ## 5. The steps of writers -/

/-- What a step of a writer is. -/
theorem writer_cases {w : WriterAct K δ} (h : db.writer trg w = some db') :
    (w = .begin ∧
      db' = { db with txns := db.txns.put db.nextXid .fresh, nextXid := db.nextXid + 1 }) ∨
    (∃ x st t, w = .exec x st ∧ db.txns.get x = some t ∧ db.locked x st = false ∧
      st.ok (t.table x db.rows) = true ∧
      db' = { db with txns := db.txns.put x (t.exec trg x db st) }) ∨
    (∃ x t, w = .commit x ∧ db.txns.get x = some t ∧
      db' = { db with
        rows := t.table x db.rows
        queue := t.commitQueue db.queue
        txns := db.txns.erase x }) ∨
    (∃ x t, w = .rollback x ∧ db.txns.get x = some t ∧
      db' = { db with txns := db.txns.erase x }) := by
  cases w with
  | begin => exact .inl ⟨rfl, (Option.some.inj h).symm⟩
  | exec x st =>
    simp only [Db.writer] at h
    split at h
    · cases h
    · rename_i t ht
      split at h
      · cases h
      · rename_i hc
        simp only [Bool.or_eq_true, Bool.not_eq_true', not_or, Bool.not_eq_true,
          Bool.not_eq_false] at hc
        exact .inr (.inl ⟨x, st, t, rfl, ht, hc.1, hc.2, (Option.some.inj h).symm⟩)
  | commit x =>
    simp only [Db.writer] at h
    split at h
    · cases h
    · rename_i t ht
      exact .inr (.inr (.inl ⟨x, t, rfl, ht, (Option.some.inj h).symm⟩))
  | rollback x =>
    simp only [Db.writer] at h
    split at h
    · cases h
    · rename_i t ht
      exact .inr (.inr (.inr ⟨x, t, rfl, ht, (Option.some.inj h).symm⟩))

end Exec

variable {trg : Triggers K δ}

theorem Db.Locks.exec [Inhabited P] (h : db.Locks) (ht : db.txns.get x = some t)
    (hl : db.locked x st = false) :
    ({ db with txns := db.txns.put x (t.exec trg x db st) } : Db K δ P).Locks := by
  -- a transaction next to `x`: it has not truncated, and holds no key of the statement
  have hother : ∀ y u, y ≠ x → db.txns.get y = some u →
      u.trunc = false ∧ ∀ k, (t.exec trg x db st).mine.get k = none ∨ u.mine.get k = none := by
    intro y u hy hu
    obtain ⟨htr, -, hk⟩ := of_not_locked hl hu hy
    refine ⟨htr, fun k => ?_⟩
    cases hm : (t.exec trg x db st).mine.get k with
    | none => exact .inl rfl
    | some p =>
      rcases mine_exec_keys hm with hm | hm
      · rcases h.apart x y t u ht hu (Ne.symm hy) k with e | e
        · rw [e] at hm
          cases hm
        · exact .inr e
      · exact .inr (hk k hm)
  have htrunc : (t.exec trg x db st).trunc = true → ∀ y u, y ≠ x → db.txns.get y = some u →
      ∀ k, u.mine.get k = none := by
    intro htr y u hy hu k
    rw [trunc_exec] at htr
    cases st with
    | truncate => exact (of_not_locked hl hu hy).2.1 rfl k
    | insert | update | delete => exact (h.alone x y t u ht hu (Ne.symm hy) htr).2 k
  refine ⟨?_, ?_⟩
  · intro y z u v hy hz hyz k
    rw [Table.get_put] at hy hz
    split at hy
    · cases hy
      subst y
      rw [if_neg (Ne.symm hyz)] at hz
      exact (hother z v (Ne.symm hyz) hz).2 k
    · rename_i hyx
      split at hz
      · cases hz
        exact ((hother y u hyx hy).2 k).symm
      · exact h.apart y z u v hy hz hyz k
  · intro y z u v hy hz hyz htr
    rw [Table.get_put] at hy hz
    split at hy
    · cases hy
      subst y
      rw [if_neg (Ne.symm hyz)] at hz
      exact ⟨(hother z v (Ne.symm hyz) hz).1, htrunc htr z v (Ne.symm hyz) hz⟩
    · rename_i hyx
      have := (hother y u hyx hy).1
      rw [htr] at this
      cases this

/-- **Writers keep the locks.** -/
theorem Db.Locks.writer [Inhabited P] {w : WriterAct K δ}
    (h : db.Locks) (hw : db.writer trg w = some db') : db'.Locks := by
  rcases writer_cases hw with ⟨-, rfl⟩ | ⟨x, st, t, -, ht, hl, -, rfl⟩ | ⟨x, t, -, -, rfl⟩ |
    ⟨x, t, -, -, rfl⟩
  · exact h.begin
  · exact h.exec ht hl
  · exact h.mono fun _ _ hu => (Table.get_erase_some hu).2
  · exact h.mono fun _ _ hu => (Table.get_erase_some hu).2

/-! ## 6. The queue after a commit -/

theorem pending_commitQueue {s : Slot K} (h : s ∈ t.own) :
    (t.commitQueue q).Pending s :=
  Queue.pending_insertAll (a := 0) _ _ (List.mem_map.mpr ⟨s, h, rfl⟩)

/-- The queue after a commit: a job or dead job the transaction did not delete is still there. -/
theorem commitQueue_kept (t : Txn K δ P) (q : Queue K) :
    (∀ j ∈ q.jobs, j.id ∉ t.dropped → j ∈ (t.commitQueue q).jobs) ∧
      ∀ j ∈ q.dead, j ∉ t.droppedDead → j ∈ (t.commitQueue q).dead := by
  refine ⟨fun j hj hd => ?_, fun j hj hd => ?_⟩
  · refine Queue.mem_insertAll_of_mem _ ?_
    rw [Queue.jobs_deleteDead, Queue.mem_deleteJobs]
    exact ⟨hj, by simpa using hd⟩
  · rw [Txn.commitQueue, Queue.dead_insertAll, Queue.mem_deleteDead]
    exact ⟨hj, by simpa using hd⟩

/-- A job the transaction sees is pending after its commit. -/
theorem pending_of_sees {s : Slot K} (h : t.sees q s = true) : (t.commitQueue q).Pending s := by
  rcases sees_iff.mp h with ho | ⟨j, hj, hp, hs, hd⟩
  · exact pending_commitQueue ho
  · exact ⟨j, (commitQueue_kept t q).1 j hj hd, hp, hs⟩

theorem grows_commitQueue (t : Txn K δ P) (q : Queue K) : Queue.Grows q (t.commitQueue q) := by
  have k₁ : Queue.Keeps (· ∈ t.dropped) q (q.deleteJobs fun j => t.dropped.contains j.id) :=
    Queue.keeps_deleteJobs _ fun j _ hj => by simpa using hj
  have k₂ : Queue.Keeps (fun _ => False) ((q.deleteJobs fun j => t.dropped.contains j.id).deleteDead
      fun j => t.droppedDead.contains j) (t.commitQueue q) := Queue.keeps_insertAll _
  refine ⟨fun j hj => ?_, Nat.le_trans k₁.next k₂.next⟩
  rcases k₂.new j hj with ⟨j', hj', h⟩ | h
  · exact .inl ⟨j', (Queue.mem_deleteJobs.mp hj').1, h⟩
  · exact .inr h

/-- A transaction that deletes no dead job changes only the jobs it has deleted. -/
theorem keeps_commitQueue (q : Queue K) (h : t.droppedDead = []) :
    Queue.Keeps (· ∈ t.dropped) q (t.commitQueue q) where
  jobs := (commitQueue_kept t q).1
  dead := fun j hj => (commitQueue_kept t q).2 j hj (by simp [h])
  new := (grows_commitQueue t q).new
  next := (grows_commitQueue t q).next

theorem grows_writer [Inhabited P] {w : WriterAct K δ} (hw : db.writer trg w = some db') :
    Queue.Grows db.queue db'.queue := by
  rcases writer_cases hw with ⟨-, rfl⟩ | ⟨x, st, t, -, -, -, -, rfl⟩ | ⟨x, t, -, -, rfl⟩ |
    ⟨x, t, -, -, rfl⟩
  · exact .refl _
  · exact .refl _
  · exact grows_commitQueue t db.queue
  · exact .refl _

/-! ## 7. What a statement does not hold -/

section Statement

variable [Inhabited P] {T : Type*} {text : δ → Option T} {adm : List (Image K δ) → Prop}

/-- A key the transaction does not hold after a statement is none of the statement's, nor did it
    hold the key before. -/
theorem mine_of_exec (hst : st ≠ .truncate) (h : (t.exec trg x db st).mine.get k = none) :
    k ∉ st.keys ∧ t.mine.get k = none := by
  have hk : k ∉ st.keys := fun hk => mine_exec_of_mem hk h
  exact ⟨hk, (mine_exec_of_notMem hst hk).symm.trans h⟩

/-- And the key keeps its jobs. -/
theorem exec_free [BEq δ] (hT : RowTriggers text adm trg) (hst : st ≠ .truncate)
    (hadm : ∀ chs, st = .update chs → adm (images (t.table x db.rows) chs))
    (h : (t.exec trg x db st).mine.get k = none) :
    t.mine.get k = none ∧ ∀ c ∈ trg.fire (t.table x db.rows) st, c.leaves k := by
  obtain ⟨hk, hm⟩ := mine_of_exec hst h
  exact ⟨hm, hT.fire_leaves hst hadm hk⟩

section Held

variable (hfree : st ≠ .truncate → ∀ k, (t.exec trg x db st).mine.get k = none →
  t.mine.get k = none ∧ ∀ c ∈ trg.fire (t.table x db.rows) st, c.leaves k)

include hfree

/-- A key that is not held after a statement: it was not held before, and keeps its jobs. -/
theorem unheld_exec
    (h : ¬ ((t.exec trg x db st).trunc = true ∨ (t.exec trg x db st).mine.get k ≠ none)) :
    st ≠ .truncate ∧ ¬ (t.trunc = true ∨ t.mine.get k ≠ none) ∧
      ∀ c ∈ trg.fire (t.table x db.rows) st, c.leaves k := by
  simp only [not_or, not_not] at h
  have hst : st ≠ .truncate := by
    rintro rfl
    exact h.1 (trunc_exec t .truncate)
  obtain ⟨hm, hl⟩ := hfree hst _ h.2
  rw [trunc_exec_of_ne hst] at h
  exact ⟨hst, fun e => e.elim h.1 fun e => e hm, hl⟩

/-- What a transaction has deleted belongs to keys it holds, unless it has truncated the table; so
    also after a statement whose triggers concern only such keys. -/
theorem dropped_exec_held
    (h : ∀ j ∈ db.queue.jobs, j.id ∈ t.dropped → t.trunc = true ∨ t.mine.get j.slot.pk ≠ none) :
    ∀ j ∈ db.queue.jobs, j.id ∈ (t.exec trg x db st).dropped →
      (t.exec trg x db st).trunc = true ∨ (t.exec trg x db st).mine.get j.slot.pk ≠ none := by
  intro j hj hd
  by_contra hno
  obtain ⟨hst, hno, hl⟩ := unheld_exec hfree hno
  exact (leaves_exec trg hst hl).2.1 j hj rfl (fun hd => hno (h j hj hd)) hd

theorem droppedDead_exec_held
    (h : ∀ j ∈ t.droppedDead, t.trunc = true ∨ t.mine.get j.slot.pk ≠ none) :
    ∀ j ∈ (t.exec trg x db st).droppedDead,
      (t.exec trg x db st).trunc = true ∨ (t.exec trg x db st).mine.get j.slot.pk ≠ none := by
  intro j hd
  by_contra hno
  obtain ⟨hst, hno, hl⟩ := unheld_exec hfree hno
  exact (leaves_exec trg hst hl).2.2 j rfl (fun hd => hno (h j hd)) hd

end Held

theorem issued_exec (h : ∀ i ∈ t.dropped, i < db.queue.nextId) :
    ∀ i ∈ (t.exec trg x db st).dropped, i < db.queue.nextId := by
  intro i hi
  rcases (mem_dropped_foldl _ _).mp hi with hi | ⟨p, -, j, hj, -, rfl⟩
  · cases st with
    | insert | update | delete | truncate => exact h i hi
  · exact db.queue.ids_lt j hj

end Statement

end Postvec
