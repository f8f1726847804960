import Postvec.Extension.ChunkSpec
import Postvec.Managed.Enqueue
import Postvec.Source.Chunks

/-!
# Statements that move keys

One `UPDATE` may change the keys of many rows, also onto keys that rows of the same statement leave:
with a deferrable primary key only the end result has to be unique. The managed trigger function and
the extension's chunk triggers treat the re-keyed rows one by one (`Rekeys`). For each they delete
the pending jobs of the old key and enqueue the new one, so a row's clean-up can hit the job of a
row that was moved onto its key before.

* `moved_enqueued_iff`: every moved row keeps its job exactly if no row is moved onto a key that a
  later row leaves, except (in statement mode) where the two have different content;
* `rekeyed_kept_iff`: this for all of them, with the chunks: no chunk stays under a key whose
  content changed, whatever the order.
-/

namespace Postvec.Managed

open Machine List Option

variable {K δ T P : Type*} [DecidableEq K] [DecidableEq δ]

/-! ## 1. Row by row -/

/-- Triggers that run `f` for each updated row in the order of the statement, and then `g`. -/
structure Rekeys (source : δ → Option T) (slot : K → Slot K) (mode : TriggerMode)
    (f : Image K δ → List (Cmd K)) (g : List (Image K δ) → List (Cmd K)) : Prop where
  lasts : ∀ i, i.oldKey ≠ i.newKey → source i.newDoc ≠ none → Lasting (f i) (slot i.newKey)
  spares : ∀ i k, (i.oldKey ≠ i.newKey → i.oldKey ≠ k) → ∀ c ∈ f i, c.spares (slot k)
  purges : ∀ i, i.oldKey ≠ i.newKey → Purges (f i) (slot i.oldKey)
  enqueues : ∀ i k, .enqueue (slot k) ∈ f i → k = i.newKey
  spares_after : ∀ imgs k, ∀ c ∈ g imgs, c.spares (slot k)
  enqueues_after : ∀ imgs k d, mode = .statement → (k, d) ∈ changedDocs imgs → source d ≠ none →
    .enqueue (slot k) ∈ g imgs
  from_after : ∀ imgs k, .enqueue (slot k) ∈ g imgs →
    mode = .statement ∧ ∃ d, (k, d) ∈ changedDocs imgs

/-- No row with a source is moved onto a key that a later row of the statement leaves; in statement
    mode it may, if it differs from that row. -/
def Unstranded (source : δ → Option T) (mode : TriggerMode) (imgs : List (Image K δ)) : Prop :=
  imgs.Pairwise fun i i' => i'.oldKey ≠ i'.newKey → i'.oldKey = i.newKey →
    source i.newDoc = none ∨ (mode = .statement ∧ i.newDoc ≠ i'.oldDoc)

section Generic

variable {source : δ → Option T} {slot : K → Slot K} {mode : TriggerMode}
  {f : Image K δ → List (Cmd K)} {g : List (Image K δ) → List (Cmd K)} {imgs : List (Image K δ)}
  {i : Image K δ} {q : Queue K} {pre post : List (Image K δ)}

omit [DecidableEq δ] in
/-- A slot nobody enqueues stays without a pending job. -/
theorem not_sees_foldl {cs : List (Cmd K)} {t : Txn K δ P} {s : Slot K} (h : t.sees q s = false)
    (hne : .enqueue s ∉ cs) : (cs.foldl (Txn.run q) t).sees q s = false := by
  by_contra hc
  rw [(sees_foldl_inv (Bool.not_eq_false _ ▸ hc)).resolve_right hne] at h
  cases h

variable (h : Rekeys source slot mode f g)

include h

/-- A moved row whose key no later row leaves. -/
theorem Rekeys.lasting
    (hmove : i.oldKey ≠ i.newKey) (hs : source i.newDoc ≠ none)
    (hpost : ∀ i' ∈ post, i'.oldKey ≠ i'.newKey → i'.oldKey ≠ i.newKey) :
    Lasting ((pre ++ i :: post).flatMap f) (slot i.newKey) := by
  rw [flatMap_append, flatMap_cons]
  refine Lasting.append_left (Lasting.append_right (h.lasts i hmove hs) fun c hc => ?_) _
  obtain ⟨i', hi', hc⟩ := mem_flatMap.mp hc
  exact h.spares i' _ (hpost i' hi') c hc

/-- A job the statement trigger enqueues stays. -/
theorem Rekeys.lasting_after {k : K}
    (hm : .enqueue (slot k) ∈ g imgs) : Lasting (g imgs) (slot k) := by
  obtain ⟨pre, post, e⟩ := append_of_mem hm
  refine ⟨pre, post, e, fun c hc => h.spares_after imgs k c ?_⟩
  rw [e]
  exact mem_append_right _ (mem_cons_of_mem _ hc)

/-- A row moved onto a key that a later row with the same content leaves is left without a job. -/
theorem Rekeys.strands {i' : Image K δ}
    {mid : List (Image K δ)} (e : imgs = pre ++ i :: (mid ++ i' :: post))
    (hold : (imgs.map Image.oldKey).Nodup) (hnew : (imgs.map Image.newKey).Nodup)
    (hmove : i'.oldKey ≠ i'.newKey) (hkey : i'.oldKey = i.newKey)
    (hsame : ¬ (mode = .statement ∧ i.newDoc ≠ i'.oldDoc)) (t : Txn K δ P) :
    ((imgs.flatMap f ++ g imgs).foldl (Txn.run q) t).sees q (slot i.newKey) = false := by
  have hi : i ∈ imgs := by
    rw [e]
    simp
  have hi' : i' ∈ imgs := by
    rw [e]
    simp
  -- the rows after `i'` have other new keys
  have hpost : .enqueue (slot i.newKey) ∉ post.flatMap f := by
    intro hm
    obtain ⟨j, hj, hm⟩ := mem_flatMap.mp hm
    have hk : i.newKey = j.newKey := h.enqueues j _ hm
    rw [e, map_append, map_cons] at hnew
    have hn := (nodup_cons.mp (nodup_append.mp hnew).2.1).1
    rw [hk] at hn
    exact hn (List.mem_map_of_mem (mem_append_right _ (mem_cons_of_mem _ hj)))
  -- and the statement trigger compares `i` with `i'` only
  have hafter : .enqueue (slot i.newKey) ∉ g imgs := by
    intro hm
    obtain ⟨hmode, d, hd⟩ := h.from_after imgs _ hm
    obtain ⟨n, hn, o, ho, hko, hne, hd⟩ := mem_changedDocs.mp hd
    have en : n = i := inj_on_of_nodup_map hnew hn hi (Prod.mk.inj hd).1.symm
    subst en
    have eo : o = i' := inj_on_of_nodup_map hold ho hi' (hko.trans hkey.symm)
    subst eo
    exact hsame ⟨hmode, beq_eq_false_iff_ne.mp hne⟩
  have hsplit : imgs.flatMap f ++ g imgs =
      (pre ++ i :: mid).flatMap f ++ (f i' ++ (post.flatMap f ++ g imgs)) := by
    conv_lhs => rw [e]
    simp [flatMap_append, e]
  rw [hsplit, foldl_append, foldl_append]
  refine not_sees_foldl ?_ fun hm => ?_
  · rw [← hkey]
    exact (h.purges i' hmove).not_sees q _
  · rcases mem_append.mp hm with hm | hm
    · exact hpost hm
    · exact hafter hm

/-- **Moved rows keep their job** exactly if the statement strands none. -/
theorem Rekeys.moved_enqueued_iff
    (hold : (imgs.map Image.oldKey).Nodup) (hnew : (imgs.map Image.newKey).Nodup)
    (t : Txn K δ P) :
    (∀ i ∈ imgs, i.oldKey ≠ i.newKey → source i.newDoc ≠ none →
      ((imgs.flatMap f ++ g imgs).foldl (Txn.run q) t).sees q (slot i.newKey) = true) ↔
    Unstranded source mode imgs := by
  refine ⟨fun hall => ?_, fun hun i hi hmove hs => ?_⟩
  · refine pairwise_iff_forall_sublist.mpr fun {i i'} hsub hmove hkey => ?_
    by_contra hc
    obtain ⟨hs, hsame⟩ := not_or.mp hc
    obtain ⟨pre, mid, post, e⟩ : ∃ pre mid post, imgs = pre ++ i :: (mid ++ i' :: post) := by
      obtain ⟨r, r', e, h₁, h₂⟩ := cons_sublist_iff.mp hsub
      obtain ⟨a, b, rfl⟩ := append_of_mem h₁
      obtain ⟨c, d, rfl⟩ := append_of_mem (singleton_sublist.mp h₂)
      exact ⟨a, b ++ c, d, by simp [e]⟩
    have hi : i ∈ imgs := by
      rw [e]
      simp
    have hi' : i' ∈ imgs := by
      rw [e]
      simp
    have hne : i.oldKey ≠ i.newKey := by
      intro hk
      have : i = i' := inj_on_of_nodup_map hold hi hi' (hk.trans hkey.symm)
      subst this
      exact hmove hkey
    have := h.strands (q := q) e hold hnew hmove hkey hsame t
    rw [hall i hi hne hs] at this
    cases this
  · obtain ⟨pre, post, e⟩ := append_of_mem hi
    rw [e] at hun
    have hlater := (pairwise_cons.mp (pairwise_append.mp hun).2.1).1
    by_cases hex : ∃ i' ∈ post, i'.oldKey ≠ i'.newKey ∧ i'.oldKey = i.newKey
    · -- a later row leaves the key: the statement trigger enqueues it again
      obtain ⟨i', hi', hmove', hkey⟩ := hex
      obtain ⟨hmode, hne⟩ := (hlater i' hi' hmove' hkey).resolve_left hs
      have hm : (i.newKey, i.newDoc) ∈ changedDocs imgs := by
        refine mem_changedDocs.mpr ⟨i, hi, i', ?_, hkey, beq_eq_false_iff_ne.mpr hne, rfl⟩
        rw [e]
        exact mem_append_right _ (mem_cons_of_mem _ hi')
      exact (Lasting.append_left
        (h.lasting_after (h.enqueues_after imgs _ _ hmode hm hs)) _).sees q t
    · have hl : Lasting (imgs.flatMap f) (slot i.newKey) := by
        rw [e]
        exact h.lasting hmove hs fun i' hi' hm hk => hex ⟨i', hi', hm, hk⟩
      exact (hl.append_right (h.spares_after imgs _)).sees q t

end Generic

/-! ## 2. The managed function and the chunk triggers -/

section Instances

variable {imgs : List (Image K δ)} {recursive : Bool} {mode : TriggerMode} {i : Image K δ}
  {c : Cmd K} {source : δ → Option T}

/-- The managed function on one updated row; in statement mode the row trigger fires for re-keyed
    rows only. -/
def rowPart (recursive : Bool) (mode : TriggerMode) (i : Image K δ) : List (Cmd K) :=
  match mode with
  | .row => updateRow recursive i
  | .statement => if i.oldKey = i.newKey then [] else updateRow recursive i

def statementPart (recursive : Bool) (mode : TriggerMode) (imgs : List (Image K δ)) :
    List (Cmd K) :=
  match mode with
  | .row => []
  | .statement => updateStatement recursive imgs

theorem triggers_onUpdate (source : δ → Option T) (recursive : Bool) (mode : TriggerMode)
    (imgs : List (Image K δ)) : (triggers source recursive mode).onUpdate imgs =
      imgs.flatMap (rowPart recursive mode) ++ statementPart recursive mode imgs := by
  cases mode with
  | row => exact (append_nil _).symm
  | statement =>
    refine congrArg (· ++ updateStatement recursive imgs) ?_
    induction imgs with
    | nil => rfl
    | cons i is ih =>
      rw [flatMap_cons, ← ih, filter_cons]
      by_cases h : i.oldKey = i.newKey
      · simp [h, rowPart]
      · simp [h, rowPart]

theorem mem_rowPart (h : c ∈ rowPart recursive mode i) : c ∈ updateRow recursive i := by
  cases mode with
  | row => exact h
  | statement => exact (mem_ite_nil_left.mp h).2

theorem rowPart_rekeyed (mode : TriggerMode)
    (h : i.oldKey ≠ i.newKey) : rowPart recursive mode i = updateRow recursive i := by
  cases mode with
  | row => rfl
  | statement => exact if_neg h

theorem rekeys_managed (source : δ → Option T) (recursive : Bool) (mode : TriggerMode) :
    Rekeys source (jobSlot recursive) mode (rowPart recursive mode : Image K δ → List (Cmd K))
      (statementPart recursive mode) where
  lasts := by
    intro i hne _
    rw [rowPart_rekeyed mode hne]
    exact lasting_updateRow fun hs => hne hs.1
  spares := fun i k h c hc => updateRow_spares h c (mem_rowPart hc)
  purges := by
    intro i hne
    rw [rowPart_rekeyed mode hne]
    refine ⟨⟨fun s claimed => decide (s.pk = i.oldKey) && !claimed, ?_, by simp⟩,
      fun he => hne ?_⟩
    · rw [updateRow, if_neg hne]
      exact mem_append_right _ mem_cons_self
    · have := congrArg Slot.pk (enqueue_mem_updateRow he)
      rwa [jobSlot_pk, jobSlot_pk] at this
  enqueues := by
    intro i k he
    have := congrArg Slot.pk (enqueue_mem_updateRow (mem_rowPart he))
    rwa [jobSlot_pk, jobSlot_pk] at this
  spares_after := by
    intro imgs k c hc
    cases mode with
    | row => cases hc
    | statement => exact updateStatement_spares c hc
  enqueues_after := by
    intro imgs k d hm hd _
    subst hm
    exact mem_append_right _ (List.mem_map.mpr ⟨(k, d), hd, rfl⟩)
  from_after := by
    intro imgs k he
    cases mode with
    | row => cases he
    | statement =>
      refine ⟨rfl, ?_⟩
      rcases mem_append.mp he with he | he
      · exact absurd he (enqueue_notMem_dropDerived _)
      · obtain ⟨d, hd, e⟩ := List.mem_map.mp he
        have hk : d.1 = k := by
          have := congrArg Slot.pk (Cmd.enqueue.inj e)
          rwa [jobSlot_pk, jobSlot_pk] at this
        exact ⟨d.2, hk ▸ hd⟩

/-- The extension's chunk triggers on one updated row. -/
def chunkRowPart (source : δ → Option T) (mode : TriggerMode) (i : Image K δ) : List (Cmd K) :=
  match mode with
  | .row => trgChunkPk source i ++ trgChunkUpdRow source i
  | .statement => trgChunkPk source i

def chunkStatementPart (source : δ → Option T) (mode : TriggerMode) (imgs : List (Image K δ)) :
    List (Cmd K) :=
  match mode with
  | .row => []
  | .statement => trgChunkUpdStmt source imgs

theorem chunkTriggers_onUpdate (source : δ → Option T) (mode : TriggerMode)
    (imgs : List (Image K δ)) : (chunkTriggers source mode).onUpdate imgs =
      imgs.flatMap (chunkRowPart source mode) ++ chunkStatementPart source mode imgs := by
  cases mode with
  | row => exact (append_nil _).symm
  | statement => rfl

/-- A row's chunk triggers are the key trigger and, in row mode, the one on the referenced
    columns. -/
theorem mem_chunkRowPart
    (h : c ∈ chunkRowPart source mode i) : c ∈ trgChunkPk source i ∨
    c ∈ trgChunkUpdRow source i := by
  cases mode with
  | row => exact mem_append.mp h
  | statement => exact .inl h

theorem enqueue_mem_chunkRowPart
    {s : Slot K} (h : .enqueue s ∈ chunkRowPart source mode i) : s = refreshSlot i.newKey := by
  have hno : ∀ p jobs, ∀ c ∈ purgeDocs p jobs, c = .enqueue s → s = refreshSlot i.newKey :=
    fun p jobs c hc e => absurd (e ▸ hc) (enqueue_notMem_purgeDocs p jobs s)
  rcases mem_chunkRowPart h with h | h
  · exact forall_rowTrigger (fun _ => ⟨hno _ _, fun e => (Cmd.enqueue.inj e).symm⟩) _ h rfl
  · exact forall_rowTrigger (fun _ => ⟨hno _ _, fun e => (Cmd.enqueue.inj e).symm⟩) _ h rfl

theorem rekeys_chunk (source : δ → Option T) (mode : TriggerMode) :
    Rekeys source refreshSlot mode (chunkRowPart source mode : Image K δ → List (Cmd K))
      (chunkStatementPart source mode) where
  lasts := by
    intro i hne hs
    have hl : Lasting (trgChunkPk source i) (refreshSlot i.newKey) := lasting_trgChunkPk hne hs
    cases mode with
    | row => exact hl.append_right trgChunkUpdRow_spares
    | statement => exact hl
  spares := by
    intro i k h c hc
    rcases mem_chunkRowPart hc with hc | hc
    · exact trgChunkPk_spares h c hc
    · exact trgChunkUpdRow_spares c hc
  purges := by
    intro i hne
    obtain ⟨p, hp, hps⟩ := deleteJobs_mem_purgeDocs (k := i.oldKey)
      (p := fun k => decide (k = i.oldKey)) (by simp)
    have hm : Cmd.deleteJobs p ∈ trgChunkPk source i := by
      unfold trgChunkPk
      rw [if_neg hne]
      exact mem_append_left _ hp
    refine ⟨⟨p, ?_, hps⟩, fun he => hne (congrArg Slot.pk (enqueue_mem_chunkRowPart he))⟩
    cases mode with
    | row => exact mem_append_left _ hm
    | statement => exact hm
  enqueues := fun i k he => congrArg Slot.pk (enqueue_mem_chunkRowPart he)
  spares_after := by
    intro imgs k c hc
    cases mode with
    | row => cases hc
    | statement => exact trgChunkUpdStmt_spares c hc
  enqueues_after := by
    intro imgs k d hm hd hs
    subst hm
    exact mem_append_right _
      (mem_flatMap.mpr ⟨(k, d), hd, mem_enqueueRefresh.mpr ⟨rfl, hs⟩⟩)
  from_after := by
    intro imgs k he
    cases mode with
    | row => cases he
    | statement =>
      refine ⟨rfl, ?_⟩
      rcases mem_append.mp he with he | he
      · exact absurd he (enqueue_notMem_purgeDocs _ _ _)
      · obtain ⟨d, hd, he⟩ := mem_flatMap.mp he
        have hk : k = d.1 := congrArg Slot.pk (Cmd.enqueue.inj (mem_enqueueRefresh.mp he).1)
        exact ⟨d.2, hk ▸ hd⟩

end Instances

/-! ## 3. The statement in its transaction -/

section Statement

variable [Inhabited P] {source : δ → Option T} {trg : Triggers K δ} {t : Txn K δ P} {x : Nat}
  {db : Db K δ P} {chs : List (Chg K δ)}

/-- After the statement every re-keyed row with a source has a pending job under its new key, and in
    chunk mode the chunks left under a key are of the content it still has. -/
def MovesKept (source : δ → Option T) (slot : K → Slot K) (trg : Triggers K δ) (chunked : Bool)
    (t : Txn K δ P) (x : Nat) (db : Db K δ P) (chs : List (Chg K δ)) : Prop :=
  (∀ c ∈ chs, c.old ≠ c.new → source c.doc ≠ none →
    (t.exec trg x db (.update chs)).sees db.queue (slot c.new) = true) ∧
  (chunked = true → ∀ k, docAt (t.table x db.rows) k ≠ none →
    (t.exec trg x db (.update chs)).cut k = false →
    docAt ((t.exec trg x db (.update chs)).table x db.rows) k = docAt (t.table x db.rows) k)

section Ok

variable (hok : (Stmt.update chs).ok (t.table x db.rows) = true)

include hok

/-- Whatever the order, the chunks of a key whose content changes are deleted. -/
theorem content_kept (hT : DocTriggers source trg) {k : K}
    (hk : docAt (t.table x db.rows) k ≠ none)
    (hcut : (t.exec trg x db (.update chs)).cut k = false) :
    docAt ((t.exec trg x db (.update chs)).table x db.rows) k = docAt (t.table x db.rows) k := by
  obtain ⟨hold, hnew, hrows⟩ := ok_update hok
  have hst : Stmt.update chs ≠ .truncate := fun e => by cases e
  have hncut : ¬ Cuts (trg.onUpdate (images (t.table x db.rows) chs)) k := by
    intro hc
    rw [(cut_exec hst).mpr (.inr hc)] at hcut
    cases hcut
  -- a row of the statement that had the key kept it, with its columns
  have hsame : ∀ c ∈ chs, c.old = k → c.new = k ∧ docAt (t.table x db.rows) k = some c.doc := by
    intro c hc e
    obtain ⟨r, hr⟩ := hrows c hc
    by_contra hn
    refine hncut ?_
    have hi := hT.update_cuts _ ⟨c.old, r.doc, c.new, c.doc⟩
      (mem_images.mpr ⟨c, hc, r, hr, rfl⟩) fun hs => hn ⟨hs.1.symm.trans e, ?_⟩
    · rw [← e]
      exact hi
    · rw [docAt, ← e, hr]
      exact congrArg some (eq_of_beq hs.2).symm
  by_cases hm : k ∈ (Stmt.update chs).keys
  · -- some row of the statement has the key afterwards
    have hin : ∃ c ∈ chs, c.new = k := by
      rcases mem_append.mp hm with hm | hm
      · obtain ⟨c, hc, e⟩ := List.mem_map.mp hm
        exact ⟨c, hc, (hsame c hc e).1⟩
      · obtain ⟨c, hc, e⟩ := List.mem_map.mp hm
        exact ⟨c, hc, e⟩
    obtain ⟨c, hc, e⟩ := hin
    have hco : c.old = k := by
      rcases ok_update_target hok c hc with h | h | ⟨c', hc', h⟩
      · exact h.symm.trans e
      · rw [docAt, ← e, h] at hk
        exact absurd rfl hk
      · have hk' := (hsame c' hc' (h.trans e)).1
        rw [inj_on_of_nodup_map hnew hc hc' (e.trans hk'.symm)]
        exact h.trans e
    obtain ⟨r, hr⟩ := hrows c hc
    have hheld : (t.exec trg x db (.update chs)).mine.get k ≠ none := mine_exec_of_mem hm
    obtain ⟨p, hp⟩ := ne_none_iff_exists'.mp hheld
    have hput : p = t.changed x (t.table x db.rows) c := by
      cases exec_written hok hm hp with
      | left _ _ _ hn => exact absurd (List.mem_map.mpr ⟨c, hc, e⟩) hn
      | changed hc' _ hk' => rw [inj_on_of_nodup_map hnew hc' hc (hk'.trans e.symm)]
    have htr : (t.exec trg x db (.update chs)).trunc = t.trunc :=
    trunc_exec_of_ne hst
    rw [(hsame c hc hco).2, docAt, table_get_held hp, htr, hput]
    have hne := changed_apply_ne_none hr
    rw [e] at hne
    obtain ⟨r', hr'⟩ := ne_none_iff_exists'.mp hne
    rw [hr']
    exact congrArg some (doc_of_changed hr')
  · rw [docAt, docAt, table_exec_of_notMem hst hm]

omit [DecidableEq δ] [Inhabited P] in
/-- Over the images of a statement the moved rows are the same. -/
theorem moved_images (p : K → Prop) :
    (∀ c ∈ chs, c.old ≠ c.new → source c.doc ≠ none → p c.new) ↔
      ∀ i ∈ images (t.table x db.rows) chs, i.oldKey ≠ i.newKey → source i.newDoc ≠ none →
        p i.newKey := by
  obtain ⟨-, -, hrows⟩ := ok_update hok
  refine ⟨fun h i hi => ?_, fun h c hc => ?_⟩
  · obtain ⟨c, hc, r, -, rfl⟩ := mem_images.mp hi
    exact h c hc
  · obtain ⟨r, hr⟩ := hrows c hc
    exact h _ (mem_images.mpr ⟨c, hc, r, hr, rfl⟩)

omit [DecidableEq δ] [Inhabited P] in
/-- The keys of the images are distinct, before and after. -/
theorem images_nodup :
    ((images (t.table x db.rows) chs).map Image.oldKey).Nodup ∧
      ((images (t.table x db.rows) chs).map Image.newKey).Nodup := by
  obtain ⟨hold, hnew, -⟩ := ok_update hok
  have hkeys : ∀ (a : Chg K δ → K) (b : Image K δ → K), (∀ c d, b ⟨c.old, d, c.new, c.doc⟩ = a c) →
      (chs.map a).Nodup → ((images (t.table x db.rows) chs).map b).Nodup := by
    intro a b hab ha
    refine pairwise_map.mpr (List.Pairwise.filterMap _ ?_ (pairwise_map.mp ha))
    intro c c' hcc i hi i' hi'
    obtain ⟨r, -, rfl⟩ := map_eq_some_iff.mp hi
    obtain ⟨r', -, rfl⟩ := map_eq_some_iff.mp hi'
    rw [hab, hab]
    exact hcc
  exact ⟨hkeys Chg.old _ (fun _ _ => rfl) hold, hkeys Chg.new _ (fun _ _ => rfl) hnew⟩

/-- Triggers that work row by row keep the moved rows exactly if the statement strands none. -/
theorem Rekeys.movesKept_iff {slot : K → Slot K} {mode : TriggerMode} {chunked : Bool}
    {f : Image K δ → List (Cmd K)} {g : List (Image K δ) → List (Cmd K)}
    (h : Rekeys source slot mode f g) (hfire : ∀ imgs, trg.onUpdate imgs = imgs.flatMap f ++ g imgs)
    (hT : chunked = true → DocTriggers source trg) :
    MovesKept source slot trg chunked t x db chs ↔
      Unstranded source mode (images (t.table x db.rows) chs) := by
  obtain ⟨hold, hnew⟩ := images_nodup hok
  have hsees := h.moved_enqueued_iff (q := db.queue) hold hnew (t.write x db.rows (.update chs))
  rw [← hfire] at hsees
  rw [← hsees, ← moved_images hok (fun k =>
    ((trg.onUpdate (images (t.table x db.rows) chs)).foldl (Txn.run db.queue)
      (t.write x db.rows (.update chs))).sees db.queue (slot k) = true)]
  refine ⟨fun hm => hm.1, fun hm => ⟨hm, fun hc k hk hcut => ?_⟩⟩
  exact content_kept hok (hT hc) hk hcut

end Ok

/-- **Moving keys.** For every `UPDATE` the primary key allows at its end, in any row order, in any
    transaction over any queue, and either trigger mode: the managed function, in column mode and
    for recursive entries, and the extension's chunk triggers keep every moved row's job, and leave
    no chunk of other content, if and only if the statement strands no row. -/
theorem rekeyed_kept_iff (source : δ → Option T) (mode : TriggerMode) (t : Txn K δ P) (x : Nat)
    (db : Db K δ P) (chs : List (Chg K δ))
    (hok : (Stmt.update chs).ok (t.table x db.rows) = true) :
    (∀ recursive, MovesKept source (jobSlot recursive) (triggers source recursive mode) recursive
        t x db chs ↔ Unstranded source mode (images (t.table x db.rows) chs)) ∧
      (MovesKept source refreshSlot (chunkTriggers source mode) true t x db chs ↔
        Unstranded source mode (images (t.table x db.rows) chs)) := by
  refine ⟨fun recursive => ?_, ?_⟩
  · refine (rekeys_managed source recursive mode).movesKept_iff hok
      (triggers_onUpdate source recursive mode)
      fun e => ?_
    subst e
    exact docTriggers_managed source mode
  · exact (rekeys_chunk source mode).movesKept_iff hok (chunkTriggers_onUpdate source mode)
      fun _ => docTriggers_chunk source mode

end Statement

/-! ## 4. A shift of keys -/

section Shift

/-- Rows 1 and 2 with the same text, and no job. -/
def twoRows : Db Nat (Option Nat) Unit where
  rows := (Table.empty.put 1 ⟨some 10, (), 0⟩).put 2 ⟨some 10, (), 0⟩
  queue := .empty
  txns := .empty
  nextXid := 1

/-- `UPDATE ... SET id = id + 1` in the order of the old keys. -/
def shiftUp : List (Chg Nat (Option Nat)) := [⟨1, 2, some 10⟩, ⟨2, 3, some 10⟩]

/-- **A stranded row.** The shift leaves the row moved to key 2 without a job: in either mode, by
    the managed function for column-mode and recursive entries, and by the chunk triggers. -/
theorem shiftUp_strands :
    (∀ mode recursive, ¬ MovesKept id (jobSlot recursive) (triggers id recursive mode) recursive
      (Txn.fresh : Txn Nat (Option Nat) Unit) 1 twoRows shiftUp) ∧
    ∀ mode, ¬ MovesKept id refreshSlot (chunkTriggers id mode) true
      (Txn.fresh : Txn Nat (Option Nat) Unit) 1 twoRows shiftUp := by
  refine ⟨fun mode recursive h => ?_, fun mode h => ?_⟩
  · have hs := h.1 ⟨1, 2, some 10⟩ mem_cons_self (by decide) (by decide)
    revert hs
    cases mode <;> cases recursive <;> decide
  · have hs := h.1 ⟨1, 2, some 10⟩ mem_cons_self (by decide) (by decide)
    revert hs
    cases mode <;> decide

/-- The same shift in the order of the new keys strands nobody. -/
theorem shiftDown_kept :
    (Stmt.update [(⟨2, 3, some 10⟩ : Chg Nat (Option Nat)), ⟨1, 2, some 10⟩]).ok
        ((Txn.fresh : Txn Nat (Option Nat) Unit).table 1 twoRows.rows) = true ∧
      MovesKept id refreshSlot (chunkTriggers id .row) true
        (Txn.fresh : Txn Nat (Option Nat) Unit) 1 twoRows
        [⟨2, 3, some 10⟩, ⟨1, 2, some 10⟩] := by
  refine ⟨by decide, (rekeyed_kept_iff id .row Txn.fresh 1 twoRows _ (by decide)).2.mpr ?_⟩
  have hi : images ((Txn.fresh : Txn Nat (Option Nat) Unit).table 1 twoRows.rows)
      [⟨2, 3, some 10⟩, ⟨1, 2, some 10⟩] =
      [⟨2, some 10, 3, some 10⟩, ⟨1, some 10, 2, some 10⟩] := rfl
  rw [hi]
  simp [Unstranded]

end Shift

end Postvec.Managed
