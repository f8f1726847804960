import Postvec.Source.TxnSpec

/-!
# Writers of a chunked entry

The triggers of a recursive entry delete what was derived from a document in the transaction that
changes it, and enqueue a refresh of it (`DocTriggers`, for the extension's and the managed
deployment's alike). As for column mode (`Source/TxnSpec.lean`) nothing here mentions a worker.

`Txn.Docs` is what an open transaction has arranged for the documents it holds: either it has only
touched the row, which shows what it showed, or the document's chunks are deleted and a refresh it
can see covers the text. A statement keeps that (`Txn.Docs.exec`), so does what others do meanwhile
(`Txn.Docs.mono`), and `Txn.Docs.committed` is what it gives at commit.
-/

namespace Postvec

open Machine List Option

variable {K δ P : Type*}

/-! ## 1. Queue statements and one document -/

/-- A queue statement does not concern the document. -/
def Cmd.avoids (k : K) : Cmd K → Prop
  | .enqueue s => s.pk ≠ k
  | .deleteJobs p => ∀ s c, s.pk = k → p s c = false
  | .deleteDead p => ∀ s, s.pk = k → p s = false
  | .cutChunks p => p k = false

/-- Some queue statement deletes the document's chunks. -/
def Cuts (cs : List (Cmd K)) (k : K) : Prop := ∃ p, Cmd.cutChunks p ∈ cs ∧ p k = true

/-- Some queue statement deletes the pending jobs of the slot, and none enqueues it. -/
def Purges (cs : List (Cmd K)) (s : Slot K) : Prop :=
  (∃ p, Cmd.deleteJobs p ∈ cs ∧ p s false = true) ∧ Cmd.enqueue s ∉ cs

section Commands

variable {q : Queue K} {t : Txn K δ P} {s : Slot K} {k : K} {c : Cmd K} {cs cs' : List (Cmd K)}

theorem Cmd.avoids.leaves (h : c.avoids k) : c.leaves k := by
  cases c with
  | enqueue s => trivial
  | deleteJobs | deleteDead => exact h
  | cutChunks p => trivial

theorem Lasting.append_left (h : Lasting cs s) (cs' : List (Cmd K)) :
    Lasting (cs' ++ cs) s := by
  obtain ⟨pre, post, rfl, hp⟩ := h
  exact ⟨cs' ++ pre, post, by simp, hp⟩

theorem Lasting.append_right (h : Lasting cs s)
    (hc : ∀ c ∈ cs', c.spares s) : Lasting (cs ++ cs') s := by
  obtain ⟨pre, post, rfl, hp⟩ := h
  refine ⟨pre, post ++ cs', by simp, fun c hm => ?_⟩
  rcases mem_append.mp hm with hm | hm
  · exact hp c hm
  · exact hc c hm

theorem Cuts.not_avoids (h : Cuts cs k) : ¬ ∀ c ∈ cs, c.avoids k := by
  obtain ⟨p, hm, hp⟩ := h
  intro ha
  have : p k = false := ha _ hm
  rw [hp] at this
  cases this

theorem Cuts.mono (h : Cuts cs k) (hs : ∀ c ∈ cs, c ∈ cs') :
    Cuts cs' k := by
  obtain ⟨p, hm, hp⟩ := h
  exact ⟨p, hs _ hm, hp⟩

variable [DecidableEq K]

theorem cut_run : (t.run q c).cut k = true ↔
    t.cut k = true ∨ ∃ p, c = .cutChunks p ∧ p k = true := by
  cases c with
  | enqueue s' =>
    simp only [Txn.run]
    split <;> simp
  | deleteJobs | deleteDead | cutChunks => simp [Txn.run]

/-- The documents whose chunks a transaction's queue statements delete. -/
theorem cut_foldl (cs : List (Cmd K)) (t : Txn K δ P) :
    (cs.foldl (Txn.run q) t).cut k = true ↔ t.cut k = true ∨ Cuts cs k :=
  foldl_adds (I := fun t => t.cut k = true) (fun _ _ => cut_run) cs t

theorem mem_own_run_inv (h : s ∈ (t.run q c).own) :
    (s ∈ t.own ∧ ∀ p, c = .deleteJobs p → p s false = false) ∨ c = .enqueue s := by
  cases c with
  | enqueue s' =>
    simp only [Txn.run] at h
    split at h
    · exact .inl ⟨h, fun _ e => by cases e⟩
    · rcases mem_append.mp h with h | h
      · exact .inl ⟨h, fun _ e => by cases e⟩
      · rw [mem_singleton.mp h]
        exact .inr rfl
  | deleteJobs p =>
    simp only [Txn.run, mem_filter, Bool.not_eq_true'] at h
    exact .inl ⟨h.1, fun p' e => by cases e; exact h.2⟩
  | deleteDead | cutChunks => exact .inl ⟨h, fun _ e => by cases e⟩

/-- An uncommitted job was there before and spared by every deletion, or was enqueued. -/
theorem mem_own_foldl : ∀ (cs : List (Cmd K)) (t : Txn K δ P), s ∈ (cs.foldl (Txn.run q) t).own →
    (s ∈ t.own ∧ ∀ p, .deleteJobs p ∈ cs → p s false = false) ∨ .enqueue s ∈ cs
  | [], t, h => .inl ⟨h, fun _ hp => by cases hp⟩
  | c :: cs, t, h => by
    rcases mem_own_foldl cs _ h with ⟨h, hcs⟩ | h
    · rcases mem_own_run_inv h with ⟨h, hc⟩ | rfl
      · refine .inl ⟨h, fun p hp => ?_⟩
        rcases mem_cons.mp hp with e | hp
        · exact hc p e.symm
        · exact hcs p hp
      · exact .inr mem_cons_self
    · exact .inr (mem_cons_of_mem _ h)

/-- What the transaction sees of a slot it saw before, or it has enqueued it. -/
theorem sees_foldl_inv (h : (cs.foldl (Txn.run q) t).sees q s = true) :
    t.sees q s = true ∨ .enqueue s ∈ cs := by
  rcases sees_iff.mp h with ho | ⟨j, hj, hp, hjs, hd⟩
  · exact (mem_own_foldl cs t ho).imp_left fun ho => sees_iff.mpr (.inl ho.1)
  · exact .inl (sees_iff.mpr (.inr ⟨j, hj, hp, hjs, fun hm =>
      hd ((mem_dropped_foldl cs t).mpr (.inl hm))⟩))

/-- After a purge the slot has no pending job the transaction can see. -/
theorem Purges.not_sees (h : Purges cs s) (q : Queue K) (t : Txn K δ P) :
    (cs.foldl (Txn.run q) t).sees q s = false := by
  obtain ⟨⟨p, hp, hps⟩, hne⟩ := h
  by_contra hc
  rcases sees_iff.mp (Bool.not_eq_false _ ▸ hc) with ho | ⟨j, hj, hjc, hjs, hd⟩
  · rcases mem_own_foldl cs t ho with ⟨-, hdel⟩ | he
    · rw [hdel p hp] at hps
      cases hps
    · exact hne he
  · exact hd ((mem_dropped_foldl cs t).mpr (.inr ⟨p, hp, j, hj, by rw [hjs, hjc]; exact hps, rfl⟩))

/-- Queue statements that do not concern the document leave what the transaction sees of it. -/
theorem sees_foldl_of_avoids (hc : ∀ c ∈ cs, c.avoids s.pk) :
    (cs.foldl (Txn.run q) t).sees q s = true ↔ t.sees q s = true := by
  refine ⟨fun h => ?_, fun h => ?_⟩
  · exact (sees_foldl_inv h).resolve_right fun he => hc _ he rfl
  · refine sees_foldl_of_spares cs t h fun c hm => ?_
    have ha := hc c hm
    cases c with
    | deleteJobs p => exact ha s false rfl
    | enqueue | deleteDead | cutChunks => trivial

end Commands

/-! ## 2. The triggers of a chunked entry -/

/-- No row is moved onto a key that a later row of the `UPDATE` leaves; the old keys are
    distinct. -/
def Orderly (imgs : List (Image K δ)) : Prop :=
  imgs.Pairwise fun i i' =>
    i.oldKey ≠ i'.oldKey ∧ (i'.oldKey ≠ i'.newKey → i'.oldKey ≠ i.newKey)

variable {imgs : List (Image K δ)} {d : K × δ}

/-- A row of an `UPDATE`, with the rows before and after it. -/
theorem Orderly.later {i : Image K δ} (h : Orderly imgs) (hi : i ∈ imgs) :
    ∃ pre post, imgs = pre ++ i :: post ∧
    ∀ i' ∈ post, i'.oldKey ≠ i'.newKey → i'.oldKey ≠ i.newKey := by
  obtain ⟨pre, post, rfl⟩ := append_of_mem hi
  refine ⟨pre, post, rfl, fun i' hi' hne => ?_⟩
  have hp := (pairwise_append.mp h).2.1
  exact ((pairwise_cons.mp hp).1 i' hi').2 hne

theorem Orderly.eq_of_oldKey (h : Orderly imgs) {n o : Image K δ} (hn : n ∈ imgs) (ho : o ∈ imgs)
    (e : n.oldKey = o.oldKey) : n = o := by
  have hp : (imgs.map Image.oldKey).Nodup :=
    pairwise_map.mpr (h.imp fun h => h.1)
  exact inj_on_of_nodup_map hp hn ho e

/-- The rows of an `UPDATE` in a good order. -/
theorem orderly_images {view : Table K (Row δ P)} {chs : List (Chg K δ)}
    (hold : (chs.map Chg.old).Nodup)
    (h : chs.Pairwise fun c c' => c'.old ≠ c'.new → c'.old ≠ c.new) :
    Orderly (images view chs) := by
  refine List.Pairwise.filterMap _ ?_ ((pairwise_map.mp hold).and h)
  intro c c' hcc i hi i' hi'
  obtain ⟨r, -, rfl⟩ := map_eq_some_iff.mp hi
  obtain ⟨r', -, rfl⟩ := map_eq_some_iff.mp hi'
  exact hcc

variable [DecidableEq K]

/-- The join of an `UPDATE`'s new and old transition rows on the key, where a watched column
    `IS DISTINCT FROM` the other. -/
def changedDocs [BEq δ] (imgs : List (Image K δ)) : List (K × δ) :=
  imgs.flatMap fun n =>
    (imgs.filter fun o => decide (o.oldKey = n.newKey) && n.newDoc != o.oldDoc).map
      fun _ => (n.newKey, n.newDoc)

theorem mem_changedDocs [BEq δ] : d ∈ changedDocs imgs ↔
    ∃ n ∈ imgs, ∃ o ∈ imgs, o.oldKey = n.newKey ∧ (n.newDoc == o.oldDoc) = false ∧
      d = (n.newKey, n.newDoc) := by
  simp only [changedDocs, mem_flatMap, List.mem_map, mem_filter, Bool.and_eq_true,
    decide_eq_true_eq, bne, Bool.not_eq_true']
  refine ⟨?_, ?_⟩
  · intro h
    obtain ⟨n, hn, o, ⟨ho, hk, hd⟩, e⟩ := h
    exact ⟨n, hn, o, ho, hk, hd, e.symm⟩
  · intro h
    obtain ⟨n, hn, o, ho, hk, hd, e⟩ := h
    exact ⟨n, hn, o, ⟨ho, hk, hd⟩, e.symm⟩

/-- A row that kept its key is joined with its own old image. -/
theorem mem_changedDocs_self [BEq δ] {i : Image K δ} (hi : i ∈ imgs) (hk : i.oldKey = i.newKey)
    (hne : ¬ i.Same) : (i.newKey, i.newDoc) ∈ changedDocs imgs :=
  mem_changedDocs.mpr ⟨i, hi, i, hi, hk, Bool.eq_false_iff.mpr fun e => hne ⟨hk, e⟩, rfl⟩

/-- A key whose rows kept it and their columns is not among the changed ones. -/
theorem Orderly.changedDocs_ne [BEq δ] {k : K}
    (ho : Orderly imgs) (h : ∀ i ∈ imgs, (i.oldKey ≠ k ∧ i.newKey ≠ k) ∨ i.Same)
    (hd : d ∈ changedDocs imgs) : d.1 ≠ k := by
  intro e
  obtain ⟨n, hn, o, ho', hkey, hdoc, rfl⟩ := mem_changedDocs.mp hd
  have hsame : n.Same := (h n hn).resolve_left fun h => h.2 e
  have eno : o = n := ho.eq_of_oldKey ho' hn (hkey.trans hsame.1.symm)
  rw [eno, hsame.2] at hdoc
  cases hdoc

/-- What the triggers of a chunked entry do. A row with a source that is inserted, re-keyed or
    distinct is enqueued for a refresh; the chunks under the old key of a changed row and of a
    deleted row are deleted; other documents are not concerned. -/
structure DocTriggers [BEq δ] {T : Type*} (source : δ → Option T) (trg : Triggers K δ) : Prop where
  insert_lasts : ∀ rows k d, (k, d) ∈ rows → source d ≠ none →
    Lasting (trg.onInsert rows) (refreshSlot k)
  insert_avoids : ∀ rows k, k ∉ rows.map Prod.fst → ∀ c ∈ trg.onInsert rows, c.avoids k
  update_lasts : ∀ imgs, Orderly imgs → ∀ i ∈ imgs, ¬ i.Same → source i.newDoc ≠ none →
    Lasting (trg.onUpdate imgs) (refreshSlot i.newKey)
  update_cuts : ∀ imgs, ∀ i ∈ imgs, ¬ i.Same → Cuts (trg.onUpdate imgs) i.oldKey
  update_avoids : ∀ imgs, Orderly imgs → ∀ k, (∀ i ∈ imgs, (i.oldKey ≠ k ∧ i.newKey ≠ k) ∨ i.Same) →
    ∀ c ∈ trg.onUpdate imgs, c.avoids k
  delete_cuts : ∀ ds, ∀ d ∈ ds, Cuts (trg.onDelete ds) d.1
  delete_avoids : ∀ ds k, k ∉ ds.map Prod.fst → ∀ c ∈ trg.onDelete ds, c.avoids k
  truncate_cuts : ∀ k, Cuts trg.onTruncate k
  truncate_purges : ∀ s, s = refreshSlot s.pk → Purges trg.onTruncate s
  truncate_enqueues : ∀ s, Cmd.enqueue s ∉ trg.onTruncate
  enqueues : ∀ s, (∀ rows, Cmd.enqueue s ∈ trg.onInsert rows → s = refreshSlot s.pk) ∧
    (∀ imgs, Cmd.enqueue s ∈ trg.onUpdate imgs → s = refreshSlot s.pk) ∧
    ∀ ds, Cmd.enqueue s ∉ trg.onDelete ds

/-- The triggers also delete the pending refresh of a key that loses its row. -/
structure RefreshPurges (trg : Triggers K δ) : Prop where
  update_purges : ∀ imgs, ∀ i ∈ imgs, i.oldKey ∉ imgs.map Image.newKey →
    Purges (trg.onUpdate imgs) (refreshSlot i.oldKey)
  delete_purges : ∀ ds, ∀ d ∈ ds, Purges (trg.onDelete ds) (refreshSlot d.1)

/-! ## 3. What an open transaction has arranged -/

/-- The transaction has updated the row in place, which shows what it showed, and has left the
    document's chunks and jobs alone. -/
def Txn.Touched {X : Type*} (shown : δ → X) (t : Txn K δ P) (db : Db K δ P) (k : K) : Prop :=
  t.trunc = false ∧ t.cut k = false ∧
  (∃ r d, db.rows.get k = some r ∧ t.mine.get k = some (.updated d) ∧ shown d = shown r.doc) ∧
  (∀ j ∈ db.queue.jobs, j.slot.pk = k → j.id ∉ t.dropped) ∧
  ∀ j ∈ t.droppedDead, j.slot.pk ≠ k

/-- Transaction `x` has only touched the document, or has left it no chunks and sees a refresh for
    its text. What a document shows is its source and whatever else its chunks are made from. -/
def Txn.Arranged {T Y : Type*} (shown : δ → Option T × Y) (db : Db K δ P) (x : Nat) (t : Txn K δ P)
    (k : K) : Prop :=
  t.Touched shown db k ∨ ((t.cut k = true ∨ db.rows.get k = none) ∧
    ∀ r, (t.table x db.rows).get k = some r →
      (shown r.doc).1 = none ∨ t.sees db.queue (refreshSlot k) = true)

/-- Transaction `x` and the documents it holds. -/
structure Txn.Docs {T Y : Type*} (shown : δ → Option T × Y) (db : Db K δ P) (x : Nat)
    (t : Txn K δ P) : Prop where
  row : ∀ k, t.mine.get k ≠ none → t.Arranged shown db x k
  /-- it changes nothing of a document it does not hold -/
  cut : ∀ k, t.cut k = true → t.trunc = true ∨ t.mine.get k ≠ none
  own : ∀ s ∈ t.own, s = refreshSlot s.pk ∧ t.mine.get s.pk ≠ none
  dropped : ∀ j ∈ db.queue.jobs, j.id ∈ t.dropped → t.trunc = true ∨ t.mine.get j.slot.pk ≠ none
  droppedDead : ∀ j ∈ t.droppedDead, t.trunc = true ∨ t.mine.get j.slot.pk ≠ none
  issued : ∀ i ∈ t.dropped, i < db.queue.nextId
  all : t.trunc = true → ∀ k, t.cut k = true

theorem Txn.Docs.fresh {T Y : Type*} (shown : δ → Option T × Y) (db : Db K δ P) (x : Nat) :
    (Txn.fresh : Txn K δ P).Docs shown db x where
  row := fun _ hk => absurd rfl hk
  cut := fun _ hc => by cases hc
  own := fun _ hs => by cases hs
  dropped := fun _ _ hd => by cases hd
  droppedDead := fun _ hd => by cases hd
  issued := fun _ hi => by cases hi
  all := fun ht => by cases ht

section Docs

variable {T Y : Type*} {shown : δ → Option T × Y} {trg : Triggers K δ} {t : Txn K δ P} {x : Nat}
  {db db' : Db K δ P}

/-- A document without a row in the transaction's view has no chunks that will outlast it, or had
    no row. -/
theorem Txn.Docs.of_view_none (h : t.Docs shown db x) {k : K}
    (hv : (t.table x db.rows).get k = none) : t.cut k = true ∨ db.rows.get k = none := by
  by_cases hk : t.mine.get k = none
  · rw [table_get_free hk] at hv
    cases htr : t.trunc with
    | true => exact .inl (h.all htr k)
    | false =>
      rw [htr] at hv
      exact .inr hv
  · rcases h.row k hk with ⟨htr, -, ⟨r, d, hr, hm, -⟩, -⟩ | ⟨hc, -⟩
    · rw [table_get_held hm, htr] at hv
      have : db.rows.get k = none := map_eq_none_iff.mp hv
      rw [hr] at this
      cases this
    · exact hc

/-- **What others do meanwhile.** The rows the transaction holds stay, jobs come and go, and the
    pending refreshes it relies on are not consumed. -/
theorem Txn.Docs.mono (h : t.Docs shown db x)
    (hrows : ∀ k, t.mine.get k ≠ none → db'.rows.get k = db.rows.get k)
    (hq : Queue.Grows db.queue db'.queue)
    (hsees : ∀ k, t.mine.get k ≠ none → ∀ j ∈ db.queue.jobs, j.claimed = false →
      j.slot = refreshSlot k → j.id ∉ t.dropped → j ∈ db'.queue.jobs) :
    t.Docs shown db' x where
  row := by
    intro k hk
    rcases h.row k hk with ⟨htr, hc, ⟨r, d, hr, hm, hs⟩, hj, hd⟩ | ⟨hc, hs⟩
    · refine .inl ⟨htr, hc, ⟨r, d, (hrows k hk).trans hr, hm, hs⟩, fun j hj' hjk hjd => ?_, hd⟩
      rcases hq.new j hj' with ⟨j₀, hj₀, e, es, -⟩ | hid
      · exact hj j₀ hj₀ (es ▸ hjk) (e ▸ hjd)
      · exact absurd (h.issued _ hjd) (Nat.not_lt.mpr hid)
    · refine .inr ⟨by rw [hrows k hk]; exact hc, fun r hr => ?_⟩
      rw [table_get_congr (.inr hk) (hrows k)] at hr
      rcases hs r hr with hs | hs
      · exact .inl hs
      · exact .inr (sees_mono hs (hsees k hk))
  cut := h.cut
  own := h.own
  dropped := by
    intro j hj hjd
    rcases hq.new j hj with ⟨j₀, hj₀, e, es, -⟩ | hid
    · rw [← es]
      exact h.dropped j₀ hj₀ (e ▸ hjd)
    · exact absurd (h.issued _ hjd) (Nat.not_lt.mpr hid)
  droppedDead := h.droppedDead
  issued := fun i hi => Nat.lt_of_lt_of_le (h.issued i hi) hq.next
  all := h.all

/-- Only the committed rows and the queue matter. -/
theorem Txn.Docs.congr (h : t.Docs shown db x) (hr : db'.rows = db.rows)
    (hq : db'.queue = db.queue) : t.Docs shown db' x := by
  refine h.mono (fun k _ => by rw [hr]) ?_ fun k _ j hj _ _ _ => by rw [hq]; exact hj
  rw [hq]
  exact ⟨fun j hj => .inl ⟨j, hj, rfl, rfl, id⟩, Nat.le_refl _⟩

end Docs

/-! ## 4. A statement -/

section Exec

variable {T Y : Type*} {shown : δ → Option T × Y} {trg : Triggers K δ} {t : Txn K δ P}
  {x : Nat} {db : Db K δ P} {st : Stmt K δ} {k : K}

variable {r : Row δ P} {view : Table K (Row δ P)} {c : Chg K δ}

omit [DecidableEq K] in
/-- The triggers of a statement do not concern the documents it does not write. -/
theorem DocTriggers.fire_avoids [BEq δ] {source : δ → Option T} (hT : DocTriggers source trg)
    (view : Table K (Row δ P))
    (hst : st ≠ .truncate) (hadm : ∀ chs, st = .update chs → Orderly (images view chs))
    (hk : k ∉ st.keys) : ∀ c ∈ trg.fire view st, c.avoids k := by
  cases st with
  | truncate => exact absurd rfl hst
  | insert rows => exact hT.insert_avoids rows k hk
  | delete ks => exact hT.delete_avoids _ k fun hm => hk (mem_docsAt hm)
  | update chs =>
    exact hT.update_avoids _ (hadm chs rfl) k fun i hi => .inl (images_of_notMem hk i hi)

/-- A row of an `UPDATE` gets the watched columns the statement says. -/
theorem doc_of_changed {o : Option (Row δ P)}
    (h : (t.changed x view c).apply x o = some r) : r.doc = c.doc := by
  unfold Txn.changed at h
  split at h
  · split at h
    · obtain ⟨r₁, -, rfl⟩ := map_eq_some_iff.mp h
      rfl
    · obtain ⟨r₁, -, rfl⟩ := map_eq_some_iff.mp h
      rfl
  · obtain ⟨r₁, -, rfl⟩ := map_eq_some_iff.mp h
    rfl

/-- A row of an `UPDATE` is there under its new key. -/
theorem changed_apply_ne_none {rows : Table K (Row δ P)}
    (hr : (t.table x rows).get c.old = some r) :
    (t.changed x (t.table x rows) c).apply x ((if t.trunc then Table.empty else rows).get c.new) ≠
      none := by
  unfold Txn.changed
  split
  · rename_i e
    rw [← e]
    cases hp : t.mine.get c.old with
    | none =>
      rw [table_get_free hp] at hr
      rw [hr]
      exact some_ne_none _
    | some p =>
      rw [table_get_held hp] at hr
      cases p with
      | updated d =>
        obtain ⟨r₁, hr₁, -⟩ := map_eq_some_iff.mp hr
        rw [hr₁]
        exact some_ne_none _
      | replaced row =>
        rw [show row = some r from hr]
        exact some_ne_none _
  · rw [hr]
    exact some_ne_none _

/-- The key an `UPDATE` gives a row is the row's own, free, or the old key of a row of the
    statement. -/
theorem ok_update_target {chs : List (Chg K δ)}
    (h : (Stmt.update chs).ok view = true) (c : Chg K δ) (hc : c ∈ chs) :
    c.new = c.old ∨ view.get c.new = none ∨ ∃ c' ∈ chs, c'.old = c.new := by
  simp only [Stmt.ok, Bool.and_eq_true, Bool.or_eq_true, decide_eq_true_eq, List.all_eq_true,
    isNone_iff_eq_none, contains_iff_mem, List.mem_map] at h
  rcases (h.2 c hc).2 with (e | e) | e
  · exact .inl e
  · exact .inr (.inl e)
  · exact .inr (.inr e)

variable [Inhabited P]

section Rows

variable (hst : st ≠ .truncate)
include hst

/-- The row of a document the statement does not write. -/
theorem table_exec_of_notMem (hk : k ∉ st.keys) :
    ((t.exec trg x db st).table x db.rows).get k = (t.table x db.rows).get k := by
  have htr : (t.exec trg x db st).trunc = t.trunc := trunc_exec_of_ne hst
  have hm : (t.exec trg x db st).mine.get k = t.mine.get k := mine_exec_of_notMem hst hk
  cases hp : t.mine.get k with
  | none => rw [table_get_free hp, table_get_free (hm.trans hp), htr]
  | some p => rw [table_get_held hp, table_get_held (hm.trans hp), htr]

theorem sees_exec_of_avoids {s : Slot K}
    (ha : ∀ c ∈ trg.fire (t.table x db.rows) st, c.avoids s.pk) :
    (t.exec trg x db st).sees db.queue s = true ↔ t.sees db.queue s = true := by
  have hw := write_frame t x db.rows hst
  rw [Txn.exec, sees_foldl_of_avoids ha, sees_iff, sees_iff, hw.2.1, hw.2.2.1]

theorem cut_exec : (t.exec trg x db st).cut k = true ↔
    t.cut k = true ∨ Cuts (trg.fire (t.table x db.rows) st) k := by
  rw [Txn.exec, cut_foldl, (write_frame t x db.rows hst).2.2.2.2]

/-- A statement that does not concern a document leaves its jobs and chunks alone. -/
theorem Txn.Touched.exec
    (ha : ∀ c ∈ trg.fire (t.table x db.rows) st, c.avoids k)
    (htr : t.trunc = false) (hc : t.cut k = false) {d : δ} (hr : db.rows.get k = some r)
    (hm : (t.exec trg x db st).mine.get k = some (.updated d)) (hs : shown d = shown r.doc)
    (hj : ∀ j ∈ db.queue.jobs, j.slot.pk = k → j.id ∉ t.dropped)
    (hd : ∀ j ∈ t.droppedDead, j.slot.pk ≠ k) : (t.exec trg x db st).Touched shown db k := by
  obtain ⟨-, hjobs, hdead⟩ := leaves_exec trg hst fun c hc => (ha c hc).leaves
  refine ⟨(trunc_exec_of_ne hst).trans htr, ?_, ⟨r, d, hr, hm, hs⟩,
    fun j hj' hjk => hjobs j hj' hjk (hj j hj' hjk), fun j hj' e =>
      hdead j e (fun h => hd j h e) hj'⟩
  by_contra hcut
  rcases (cut_exec hst).mp (Bool.not_eq_false _ ▸ hcut) with h | h
  · rw [hc] at h
    cases h
  · exact h.not_avoids ha

/-- A document whose row the statement has updated in place, and that shows what it showed. -/
theorem Txn.Docs.arranged_of_same (h : t.Docs shown db x)
    (ha : ∀ c ∈ trg.fire (t.table x db.rows) st, c.avoids k) {d : δ}
    (hr : (t.table x db.rows).get k = some r) (hsh : shown d = shown r.doc)
    (hm : (t.exec trg x db st).mine.get k =
      some (t.changed x (t.table x db.rows) ⟨k, k, d⟩)) :
    (t.exec trg x db st).Arranged shown db x k := by
  have htr' : (t.exec trg x db st).trunc = t.trunc := trunc_exec_of_ne hst
  cases hp : t.mine.get k with
  | none =>
    -- the transaction has not written the document before
    obtain ⟨htr, hr⟩ := row_of_free hp hr
    have hfree : ¬ (t.trunc = true ∨ t.mine.get k ≠ none) := by simp [htr, hp]
    refine .inl (Txn.Touched.exec hst ha htr ?_ hr ?_ hsh ?_ ?_)
    · by_contra hc
      exact hfree (h.cut k (Bool.not_eq_false _ ▸ hc))
    · simpa [Txn.changed, hp] using hm
    · exact fun j hj e hd => hfree (e ▸ h.dropped j hj hd)
    · exact fun j hj e => hfree (e ▸ h.droppedDead j hj)
  | some p =>
    -- the view's row has the watched columns of the statement
    have hdoc : ∀ r', ((t.exec trg x db st).table x db.rows).get k = some r' → r'.doc = d := by
      intro r' hr'
      rw [table_get_held hm, htr'] at hr'
      cases p with
      | updated | replaced =>
        simp only [Txn.changed, hp, if_true, Priv.apply] at hr'
        obtain ⟨r₁, -, rfl⟩ := map_eq_some_iff.mp hr'
        rfl
    rcases h.row k (by rw [hp]; exact some_ne_none _) with
      ⟨htr, hc, ⟨r₀, d₀, hr₀, hm', hs⟩, hj, hd⟩ | ⟨hc, hs⟩
    · rw [hp] at hm'
      cases hm'
      have e : r.doc = d₀ := by
        rw [table_get_held hp, htr] at hr
        simp only [Bool.false_eq_true, if_false, Priv.apply, hr₀, map_some] at hr
        cases hr
        rfl
      refine .inl (Txn.Touched.exec hst ha htr hc hr₀ ?_ ((e ▸ hsh).trans hs) hj hd)
      rw [hm]
      simp [Txn.changed, hp]
    · refine .inr ⟨hc.imp_left fun hc => (cut_exec hst).mpr (.inl hc), fun r' hr' => ?_⟩
      rw [hdoc r' hr', hsh]
      exact (hs r hr).imp_right fun hs => (sees_exec_of_avoids hst ha).mpr hs

variable [BEq δ] (hT : DocTriggers (fun d => (shown d).1) trg) (h : t.Docs shown db x)
  (hadm : ∀ chs, st = .update chs → Orderly (images (t.table x db.rows) chs))
include hT h hadm

/-- A document the statement does not write. -/
theorem Txn.Docs.arranged_of_notMem (hk : k ∉ st.keys) (hm : t.mine.get k ≠ none) :
    (t.exec trg x db st).Arranged shown db x k := by
  have ha := hT.fire_avoids (t.table x db.rows) hst hadm hk
  rcases h.row k hm with ⟨htr, hc, ⟨r, d, hr, hm', hs⟩, hj, hd⟩ | ⟨hc, hs⟩
  · exact .inl (Txn.Touched.exec hst ha htr hc hr
      ((mine_exec_of_notMem hst hk).trans hm') hs hj hd)
  · refine .inr ⟨hc.imp_left fun hc => (cut_exec hst).mpr (.inl hc), fun r hr => ?_⟩
    rw [table_exec_of_notMem hst hk] at hr
    exact (hs r hr).imp_right fun hs => (sees_exec_of_avoids hst ha).mpr hs

/-- A document the statement writes. -/
theorem Txn.Docs.arranged_of_mem (hok : st.ok (t.table x db.rows) = true)
    (hren : ∀ chs, st = .update chs → Rendered shown (images (t.table x db.rows) chs))
    (hk : k ∈ st.keys) : (t.exec trg x db st).Arranged shown db x k := by
  obtain ⟨p, hp⟩ := ne_none_iff_exists'.mp (mine_exec_of_mem (t := t) (k := k) hk)
  -- a document left with no row only needs its chunks deleted
  have gone : p = .replaced none → Cuts (trg.fire (t.table x db.rows) st) k →
      (t.exec trg x db st).Arranged shown db x k := by
    intro e hc
    refine .inr ⟨.inl ((cut_exec hst).mpr (.inr hc)), fun r hr => ?_⟩
    rw [table_get_held hp, e] at hr
    cases hr
  cases exec_written hok hk hp with
  | @inserted rows d hr hv =>
    refine .inr ⟨(h.of_view_none hv).imp_left fun hc => (cut_exec hst).mpr (.inl hc),
      fun r hr' => ?_⟩
    rw [table_get_held hp] at hr'
    cases hr'
    by_cases hd : (shown d).1 = none
    · exact .inl hd
    · exact .inr ((hT.insert_lasts rows k d hr hd).sees _ _)
  | @deleted ks r hk hr => exact gone rfl (hT.delete_cuts _ (k, r.doc) (mem_docsAt_of_get hk hr))
  | @left chs c r hc hr e hn =>
    subst e
    refine gone rfl (hT.update_cuts _ _ (mem_images.mpr ⟨c, hc, r, hr, rfl⟩) fun hs => hn ?_)
    exact List.mem_map.mpr ⟨c, hc, hs.1.symm⟩
  | @changed chs c r hc hr e =>
    subst e
    have hi := mem_images.mpr ⟨c, hc, r, hr, rfl⟩
    by_cases hs : Image.Same ⟨c.old, r.doc, c.new, c.doc⟩
    · -- the row kept its key, and its columns as far as the triggers see
      have hold : c.old = c.new := hs.1
      refine h.arranged_of_same hst
        (hT.update_avoids _ (hadm chs rfl) _ (images_of_same hok hc hr hs)) (hold ▸ hr)
        (hren chs rfl _ hi hs) (hp.trans ?_)
      obtain ⟨o, n, d⟩ := c
      simp only at hold
      rw [hold]
    · have hcut : (t.exec trg x db (.update chs)).cut c.new = true ∨ db.rows.get c.new = none := by
        by_cases ho : c.old = c.new
        · exact .inl ((cut_exec hst).mpr (.inr (ho ▸ hT.update_cuts _ _ hi hs)))
        · rcases ok_update_target hok c hc with e | hv | ⟨c', hc', e⟩
          · exact absurd e.symm ho
          · exact (h.of_view_none hv).imp_left fun hc => (cut_exec hst).mpr (.inl hc)
          · -- another row of the statement leaves the key
            obtain ⟨-, hnew, hrows⟩ := ok_update hok
            obtain ⟨r', hr'⟩ := hrows c' hc'
            have hcc : c'.new ≠ c.new := by
              intro e'
              have := inj_on_of_nodup_map hnew hc' hc e'
              exact ho (this ▸ e)
            have hc'' := hT.update_cuts (images (t.table x db.rows) chs)
              ⟨c'.old, r'.doc, c'.new, c'.doc⟩ (mem_images.mpr ⟨c', hc', r', hr', rfl⟩)
              fun hs' => hcc (hs'.1.symm.trans e)
            rw [show (⟨c'.old, r'.doc, c'.new, c'.doc⟩ : Image K δ).oldKey = c.new from e] at hc''
            exact .inl ((cut_exec hst).mpr (.inr hc''))
      refine .inr ⟨hcut, fun r' hr' => ?_⟩
      have hdoc : r'.doc = c.doc := by
        rw [table_get_held hp] at hr'
        exact doc_of_changed hr'
      rw [hdoc]
      by_cases hd : (shown c.doc).1 = none
      · exact .inl hd
      · exact .inr ((hT.update_lasts _ (hadm chs rfl) _ hi hs hd).sees _ _)

/-- **A statement** keeps what the transaction has arranged. -/
theorem Txn.Docs.exec (hok : st.ok (t.table x db.rows) = true)
    (hren : ∀ chs, st = .update chs → Rendered shown (images (t.table x db.rows) chs)) :
    (t.exec trg x db st).Docs shown db x := by
  have wown := (write_frame t x db.rows hst).2.1
  have htr : (t.exec trg x db st).trunc = t.trunc := trunc_exec_of_ne hst
  -- what was held stays held, and what the triggers concern is held
  have hheld : ∀ k, t.mine.get k ≠ none → (t.exec trg x db st).mine.get k ≠ none := by
    intro k hk
    by_cases hm : k ∈ st.keys
    · exact mine_exec_of_mem hm
    · rw [mine_exec_of_notMem hst hm]
      exact hk
  have hconcern : ∀ k, (¬ ∀ c ∈ trg.fire (t.table x db.rows) st, c.avoids k) →
      (t.exec trg x db st).mine.get k ≠ none := by
    intro k hn
    by_cases hm : k ∈ st.keys
    · exact mine_exec_of_mem hm
    · exact absurd (hT.fire_avoids _ hst hadm hm) hn
  have hfree : ∀ k, (t.exec trg x db st).mine.get k = none →
      t.mine.get k = none ∧ ∀ c ∈ trg.fire (t.table x db.rows) st, c.leaves k := by
    intro k hn
    obtain ⟨hk, hm⟩ := mine_of_exec hst hn
    exact ⟨hm, fun c hc => (hT.fire_avoids _ hst hadm hk c hc).leaves⟩
  exact
    { row := by
        intro k hk
        by_cases hm : k ∈ st.keys
        · exact h.arranged_of_mem hst hT hadm hok hren hm
        · rw [mine_exec_of_notMem hst hm] at hk
          exact h.arranged_of_notMem hst hT hadm hm hk
      cut := by
        intro k hk
        rcases (cut_exec hst).mp hk with hk | hk
        · exact (h.cut k hk).imp (fun e => htr.trans e) (hheld k)
        · exact .inr (hconcern k hk.not_avoids)
      own := by
        intro s hs
        rcases mem_own_foldl _ _ hs with ⟨hs, -⟩ | he
        · have := h.own s (wown ▸ hs)
          exact ⟨this.1, hheld _ this.2⟩
        · refine ⟨?_, hconcern _ fun ha => ha _ he rfl⟩
          have := hT.enqueues s
          cases st with
          | truncate => exact absurd rfl hst
          | insert rows => exact this.1 rows he
          | update chs => exact this.2.1 _ he
          | delete ks => exact absurd he (this.2.2 _)
      dropped := dropped_exec_held (fun _ => hfree) h.dropped
      droppedDead := droppedDead_exec_held (fun _ => hfree) h.droppedDead
      issued := issued_exec h.issued
      all := fun ht k => (cut_exec hst).mpr (.inl (h.all (htr ▸ ht) k)) }

end Rows

/-- **A `TRUNCATE`** leaves the transaction no document and no refresh. -/
theorem Txn.Docs.truncate [BEq δ] (hT : DocTriggers (fun d => (shown d).1) trg)
    (h : t.Docs shown db x) :
    (t.exec trg x db .truncate).Docs shown db x := by
  have htr : (t.exec trg x db .truncate).trunc = true := by
    rw [trunc_exec]
    rfl
  have hcut : ∀ k, (t.exec trg x db .truncate).cut k = true := fun k =>
    (cut_foldl _ _).mpr (.inr (hT.truncate_cuts k))
  exact
    { row := by
        intro k hk
        have hm : (t.exec trg x db .truncate).mine.get k = none := by
          rw [mine_exec]
          rfl
        exact absurd hm hk
      cut := fun _ _ => .inl htr
      own := by
        intro s hs
        rcases mem_own_foldl _ _ hs with ⟨hs', hdel⟩ | he
        · obtain ⟨⟨p, hp, hps⟩, -⟩ := hT.truncate_purges s (h.own s hs').1
          rw [hdel p hp] at hps
          cases hps
        · exact absurd he (hT.truncate_enqueues s)
      dropped := fun _ _ _ => .inl htr
      droppedDead := fun _ _ => .inl htr
      issued := issued_exec h.issued
      all := fun _ => hcut }

end Exec

/-! ## 5. Committing -/

section Commit

variable {T Y : Type*} {shown : δ → Option T × Y} {t u : Txn K δ P} {x y : Nat} {db : Db K δ P}

/-- A job found after a commit was there and not deleted, or is one of the transaction's. -/
theorem mem_commitQueue {q : Queue K} {j : Job K} (h : j ∈ (t.commitQueue q).jobs) :
    (j ∈ q.jobs ∧ j.id ∉ t.dropped) ∨ (j.claimed = false ∧ q.nextId ≤ j.id ∧ j.slot ∈ t.own) := by
  rcases Queue.mem_insertAll _ _ h with h | ⟨hc, hid, a, ha⟩
  · obtain ⟨hj, hd⟩ := Queue.mem_deleteJobs.mp h
    exact .inl ⟨hj, by simpa using hd⟩
  · obtain ⟨s, hs, e⟩ := List.mem_map.mp ha
    cases e
    exact .inr ⟨hc, hid, hs⟩

/-- **What a commit leaves of a document.** Either the row shows what it showed and the document
    keeps its chunks and jobs; or the chunks are deleted, unless there was no row, and a row that is
    there has no source or a pending refresh. -/
theorem Txn.Docs.committed (h : t.Docs shown db x) (k : K) :
    (t.cut k = false ∧
      (((t.table x db.rows).get k).map fun r => shown r.doc) =
        ((db.rows.get k).map fun r => shown r.doc) ∧
      (∀ j ∈ db.queue.jobs, j.slot.pk = k → j ∈ (t.commitQueue db.queue).jobs) ∧
      ∀ j ∈ db.queue.dead, j.slot.pk = k → j ∈ (t.commitQueue db.queue).dead) ∨
    ((t.cut k = true ∨ db.rows.get k = none) ∧
      ∀ r, (t.table x db.rows).get k = some r →
        (shown r.doc).1 = none ∨ (t.commitQueue db.queue).Pending (refreshSlot k)) := by
  obtain ⟨hjobs, hdead⟩ := commitQueue_kept t db.queue
  by_cases hk : t.mine.get k = none
  · rw [table_get_free hk]
    cases htr : t.trunc with
    | true => exact .inr ⟨.inl (h.all htr k), fun r hr => by cases hr⟩
    | false =>
      have hfree : ¬ (t.trunc = true ∨ t.mine.get k ≠ none) := by simp [htr, hk]
      refine .inl ⟨?_, rfl, ?_, ?_⟩
      · by_contra hc
        exact hfree (h.cut k (Bool.not_eq_false _ ▸ hc))
      · exact fun j hj e => hjobs j hj fun hd => hfree (e ▸ h.dropped j hj hd)
      · exact fun j hj e => hdead j hj fun hd => hfree (e ▸ h.droppedDead j hd)
  · rcases h.row k hk with ⟨htr, hc, ⟨r, d, hr, hm, hs⟩, hj, hd⟩ | ⟨hc, hs⟩
    · refine .inl ⟨hc, ?_, fun j hj' e => hjobs j hj' (hj j hj' e),
        fun j hj' e => hdead j hj' fun hd' => hd j hd' e⟩
      rw [table_get_held hm, htr]
      simp [Priv.apply, hr, hs]
    · exact .inr ⟨hc, fun r hr => (hs r hr).imp_right pending_of_sees⟩

/-- **The other transactions** keep what they have arranged when `x` commits. -/
theorem Txn.Docs.of_commit (hl : db.Locks) (hx : db.txns.get x = some t)
    (hy : db.txns.get y = some u) (hxy : x ≠ y) (ht : t.Docs shown db x)
    (hu : u.Docs shown db y) :
    u.Docs shown { db with
      rows := t.table x db.rows
      queue := t.commitQueue db.queue
      txns := db.txns.erase x } y := by
  -- a document `y` holds is none `x` holds, and `x` has not truncated
  have hfree : ∀ k, u.mine.get k ≠ none → t.trunc = false ∧ t.mine.get k = none :=
    fun k hk => hl.free hx hy hxy hk
  refine hu.mono ?_ (grows_commitQueue t db.queue) ?_
  · intro k hk
    obtain ⟨htr, hm⟩ := hfree k hk
    simp only [table_get_free hm, htr, Bool.false_eq_true, if_false]
  · intro k hk j hj _ hjs _
    refine (commitQueue_kept t db.queue).1 j hj fun hd => ?_
    obtain ⟨htr, hm⟩ := hfree k hk
    rcases ht.dropped j hj hd with e | e
    · rw [htr] at e
      cases e
    · rw [hjs] at e
      exact e hm

end Commit

/-! ## 6. Refreshes of keys without a row -/

section Seen

variable {T Y : Type*} {shown : δ → Option T × Y} {trg : Triggers K δ} {t u : Txn K δ P} {x y : Nat}
  {db db' : Db K δ P} {st : Stmt K δ}

/-- A key the transaction has written has a row if the transaction sees a refresh of it. -/
def Txn.Seen (db : Db K δ P) (x : Nat) (t : Txn K δ P) : Prop :=
  ∀ k, t.trunc = true ∨ t.mine.get k ≠ none → t.sees db.queue (refreshSlot k) = true →
    (t.table x db.rows).get k ≠ none

theorem Txn.Seen.mono (h : t.Seen db x)
    (hrows : ∀ k, t.mine.get k ≠ none → db'.rows.get k = db.rows.get k)
    (hsees : ∀ k, t.trunc = true ∨ t.mine.get k ≠ none →
      t.sees db'.queue (refreshSlot k) = true → t.sees db.queue (refreshSlot k) = true) :
    t.Seen db' x := by
  intro k hk hs hv
  rw [table_get_congr hk (hrows k)] at hv
  exact h k hk (hsees k hk hs) hv

/-- **The other transactions** when `x` commits. -/
theorem Txn.Seen.of_commit (hl : db.Locks) (hx : db.txns.get x = some t)
    (hy : db.txns.get y = some u) (hxy : x ≠ y) (ht : t.Docs shown db x) (hu : u.Seen db y) :
    u.Seen { db with
      rows := t.table x db.rows
      queue := t.commitQueue db.queue
      txns := db.txns.erase x } y := by
  -- what `y` has written, `x` has not
  have hfree : ∀ k, u.trunc = true ∨ u.mine.get k ≠ none → t.mine.get k = none := by
    intro k hk
    rcases hk with htr | hk
    · exact (hl.alone y x u t hy hx (Ne.symm hxy) htr).2 k
    · exact (hl.apart x y t u hx hy hxy k).resolve_right hk
  refine hu.mono ?_ ?_
  · intro k hk
    obtain ⟨htr, hm⟩ := hl.free hx hy hxy hk
    simp only [table_get_free hm, htr, Bool.false_eq_true, if_false]
  · intro k hk hs
    rcases sees_iff.mp hs with ho | ⟨j, hj, hjc, hjs, hjd⟩
    · exact sees_iff.mpr (.inl ho)
    · rcases mem_commitQueue hj with ⟨hj, -⟩ | ⟨-, -, ho⟩
      · exact sees_iff.mpr (.inr ⟨j, hj, hjc, hjs, hjd⟩)
      · rw [hjs] at ho
        exact absurd (hfree k hk) (ht.own _ ho).2

/-- **A commit** leaves no pending refresh of a key without a row. -/
theorem Txn.Seen.committed (h : t.Seen db x) (hD : t.Docs shown db x)
    (hp : ∀ k, db.queue.Pending (refreshSlot k) → db.rows.get k ≠ none) (k : K)
    (hk : (t.commitQueue db.queue).Pending (refreshSlot k)) :
    (t.table x db.rows).get k ≠ none := by
  obtain ⟨j, hj, hjc, hjs⟩ := hk
  rcases mem_commitQueue hj with ⟨hj, hjd⟩ | ⟨-, -, ho⟩
  · have hs : t.sees db.queue (refreshSlot k) = true :=
      sees_iff.mpr (.inr ⟨j, hj, hjc, hjs, hjd⟩)
    by_cases hm : t.trunc = true ∨ t.mine.get k ≠ none
    · exact h k hm hs
    · simp only [not_or, not_not, Bool.not_eq_true] at hm
      rw [table_get_free hm.2, hm.1]
      exact hp k ⟨j, hj, hjc, hjs⟩
  · rw [hjs] at ho
    exact h k (.inr (hD.own _ ho).2) (sees_iff.mpr (.inl ho))

variable [Inhabited P]

/-- **A statement** that takes a key's row away takes its refresh away. -/
theorem Txn.Seen.exec [BEq δ] {source : δ → Option T} (hT : DocTriggers source trg)
    (hP : RefreshPurges trg) (h : t.Seen db x) (hok : st.ok (t.table x db.rows) = true)
    (hst : st ≠ .truncate)
    (hadm : ∀ chs, st = .update chs → Orderly (images (t.table x db.rows) chs)) :
    (t.exec trg x db st).Seen db x := by
  have htr : (t.exec trg x db st).trunc = t.trunc := trunc_exec_of_ne hst
  intro k hk hs hv
  by_cases hm : k ∈ st.keys
  · -- the key lost its row in this statement
    suffices hp : Purges (trg.fire (t.table x db.rows) st) (refreshSlot k) by
      have hn : (t.exec trg x db st).sees db.queue (refreshSlot k) = false := hp.not_sees _ _
      rw [hs] at hn
      cases hn
    obtain ⟨p, hp⟩ := ne_none_iff_exists'.mp
      (mine_exec_of_mem (t := t) (k := k) hm : (t.exec trg x db st).mine.get k ≠ none)
    rw [table_get_held hp] at hv
    cases exec_written hok hm hp with
    | inserted => cases hv
    | @deleted ks r hk' hr => exact hP.delete_purges _ (k, r.doc) (mem_docsAt_of_get hk' hr)
    | @left chs c r hc hr e hn =>
      subst e
      refine hP.update_purges _ _ (mem_images.mpr ⟨c, hc, r, hr, rfl⟩) fun hn' => hn ?_
      obtain ⟨i, hi, e⟩ := List.mem_map.mp hn'
      obtain ⟨c', hc', r', -, rfl⟩ := mem_images.mp hi
      exact List.mem_map.mpr ⟨c', hc', e⟩
    | changed hc hr e =>
      subst e
      rw [htr] at hv
      exact absurd hv (changed_apply_ne_none hr)
  · rw [htr, mine_exec_of_notMem hst hm] at hk
    rw [table_exec_of_notMem hst hm] at hv
    have ha := hT.fire_avoids (t.table x db.rows) hst hadm hm
    exact h k hk ((sees_exec_of_avoids (s := refreshSlot k) hst ha).mp hs) hv

theorem Txn.Seen.truncate [BEq δ] {source : δ → Option T} (hT : DocTriggers source trg) :
    (t.exec trg x db .truncate).Seen db x := by
  intro k _ hs
  have hn : (t.exec trg x db .truncate).sees db.queue (refreshSlot k) = false :=
    (hT.truncate_purges (refreshSlot k) rfl).not_sees _ _
  rw [hs] at hn
  cases hn

end Seen

end Postvec
