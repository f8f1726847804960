import Postvec.Source.Docs

/-!
# The managed deployment's trigger function

`postvec._enqueue` of the managed deployment is one function for column-mode and recursive entries
and for both trigger modes. In statement mode its `INSERT`, `UPDATE` and `DELETE` triggers work on
transition tables, and a row trigger fires besides for each row whose key changed; in row mode one
row trigger does everything.

* `rowTriggers_managed`: for a column-mode entry every row a statement leaves with distinct content
  is enqueued (`RowTriggers`);
* `docTriggers_managed`: for a recursive entry the chunks of changed documents are deleted and a
  refresh is enqueued (`DocTriggers`).

Both need that no row is moved onto a key which a later row of the statement leaves (`Orderly`). A
statement that changes at most one key (`oneKey`) is orderly.
-/

namespace Postvec.Managed

open Machine List

variable {K δ T : Type*}

/-! ## 1. The function -/

/-- `job_op`: a recursive entry's triggers enqueue refreshes, a column-mode entry's embeds. -/
def jobSlot (recursive : Bool) (k : K) : Slot K := if recursive then refreshSlot k else rowSlot k

/-- The loop over the keys concerned: chunks and child jobs of a recursive entry, dead jobs. -/
def dropDerived (recursive : Bool) (p : K → Bool) : List (Cmd K) :=
  (if recursive then
    [.cutChunks p, .deleteJobs fun s _ => p s.pk && decide (s.op = .embed)] else []) ++
  [.deleteDead fun s => p s.pk]

/-- `DELETE FROM postvec.jobs WHERE ... claimed_at IS NULL`. -/
def dropPending (p : K → Bool) : Cmd K := .deleteJobs fun s claimed => p s.pk && !claimed

/-- `TG_OP = 'INSERT'` on a transition table. -/
def insertStatement (source : δ → Option T) (recursive : Bool) (rows : List (K × δ)) :
    List (Cmd K) :=
  (rows.filter fun r => (source r.2).isSome).map fun r => .enqueue (jobSlot recursive r.1)

/-- `TG_OP = 'INSERT'` on a row. -/
def insertRow [DecidableEq K] (source : δ → Option T) (recursive : Bool) (r : K × δ) :
    List (Cmd K) :=
  if (source r.2).isSome then
    dropDerived recursive (fun k => decide (k = r.1)) ++ [.enqueue (jobSlot recursive r.1)]
  else []

variable [DecidableEq K]

/-- `TG_OP = 'DELETE'` on a transition table. -/
def deleteStatement (recursive : Bool) (ds : List (K × δ)) : List (Cmd K) :=
  [.deleteDead fun s => (ds.map Prod.fst).contains s.pk,
    dropPending fun k => (ds.map Prod.fst).contains k] ++
  if recursive then [.cutChunks fun k => (ds.map Prod.fst).contains k] else []

/-- `TG_OP = 'DELETE'` on a row. -/
def deleteRow (recursive : Bool) (d : K × δ) : List (Cmd K) :=
  dropDerived recursive (fun k => decide (k = d.1)) ++ [dropPending fun k => decide (k = d.1)]

variable [BEq δ]

/-- `TG_OP = 'UPDATE'` on transition tables. -/
def updateStatement (recursive : Bool) (imgs : List (Image K δ)) : List (Cmd K) :=
  dropDerived recursive (fun k => ((changedDocs imgs).map Prod.fst).contains k) ++
    (changedDocs imgs).map fun d => .enqueue (jobSlot recursive d.1)

/-- `TG_OP = 'UPDATE'` on a row: the key and then the watched columns `IS DISTINCT FROM` the old. -/
def updateRow (recursive : Bool) (i : Image K δ) : List (Cmd K) :=
  if i.oldKey = i.newKey then
    if i.newDoc == i.oldDoc then []
    else dropDerived recursive (fun k => decide (k = i.newKey)) ++
      [.enqueue (jobSlot recursive i.newKey)]
  else
    dropDerived recursive (fun k => decide (k = i.oldKey)) ++
      dropDerived recursive (fun k => decide (k = i.newKey)) ++
      [dropPending fun k => decide (k = i.oldKey), .enqueue (jobSlot recursive i.newKey)]

/-- The triggers of `postvec._register`. In statement mode a row trigger fires for the rows whose
    key changed, before the statement trigger. `trg_truncate` spares claimed refreshes of a
    recursive entry, and every claimed job of a column-mode one. -/
def triggers (source : δ → Option T) (recursive : Bool) (mode : TriggerMode) : Triggers K δ where
  onInsert := fun rows =>
    match mode with
    | .statement => insertStatement source recursive rows
    | .row => rows.flatMap (insertRow source recursive)
  onUpdate := fun imgs =>
    match mode with
    | .statement =>
      (imgs.filter fun i => decide (i.oldKey ≠ i.newKey)).flatMap (updateRow recursive) ++
        updateStatement recursive imgs
    | .row => imgs.flatMap (updateRow recursive)
  onDelete := fun ds =>
    match mode with
    | .statement => deleteStatement recursive ds
    | .row => ds.flatMap (deleteRow recursive)
  onTruncate :=
    if recursive then
      [.cutChunks fun _ => true,
        .deleteJobs fun s claimed => !(decide (s.op = .refresh) && claimed),
        .deleteDead fun _ => true]
    else [.deleteJobs fun _ claimed => !claimed]

/-- The statement changes at most one key: of any two rows, one keeps its key. -/
def oneKey : Stmt K δ → Bool
  | .update chs => decide (chs.Pairwise fun c c' => c.old = c.new ∨ c'.old = c'.new)
  | _ => true

omit [BEq δ] in
theorem orderly_of_oneKey {P : Type*} {view : Table K (Row δ P)} {chs : List (Chg K δ)}
    (hok : (Stmt.update chs).ok view = true) (h : oneKey (.update chs) = true) :
    Orderly (images view chs) := by
  have hold := (ok_update hok).1
  refine orderly_images hold ?_
  refine ((pairwise_map.mp hold).and (of_decide_eq_true h)).imp fun {c c'} hcc hne e => ?_
  rcases hcc.2 with h | h
  · exact hcc.1 (h.trans e.symm)
  · exact hne h

/-! ## 2. What its statements do to one key -/

section Commands

variable {source : δ → Option T} {rec : Bool} {p : K → Bool} {k : K} {c : Cmd K}
  {imgs : List (Image K δ)} {i : Image K δ} {ds : List (K × δ)}

section

omit [DecidableEq K]

/-- What the loop deletes, one by one. -/
theorem forall_dropDerived {Q : Cmd K → Prop}
    (hrec : rec = true →
      Q (.cutChunks p) ∧ Q (.deleteJobs fun s _ => p s.pk && decide (s.op = .embed)))
    (hdead : Q (.deleteDead fun s => p s.pk)) : ∀ c ∈ dropDerived rec p, Q c := by
  intro c hc
  rcases mem_append.mp hc with hc | hc
  · cases rec with
    | false => cases hc
    | true =>
      rcases mem_cons.mp hc with rfl | hc
      · exact (hrec rfl).1
      · rw [mem_singleton.mp hc]
        exact (hrec rfl).2
  · rw [mem_singleton.mp hc]
    exact hdead

theorem dropDerived_avoids (h : p k = false) : ∀ c ∈ dropDerived rec p, c.avoids k :=
  forall_dropDerived (fun _ => ⟨h, fun s b e => by simp [e, h]⟩) fun s e => by simp [e, h]

/-- The loop deletes no job of the kind the triggers enqueue. -/
theorem dropDerived_spares : ∀ c ∈ dropDerived rec p, c.spares (jobSlot rec k) :=
  forall_dropDerived (fun e => ⟨trivial, by simp [Cmd.spares, e, jobSlot, refreshSlot]⟩) trivial

theorem enqueue_notMem_dropDerived (s : Slot K) : Cmd.enqueue s ∉ dropDerived rec p := by
  cases rec <;> simp [dropDerived]

theorem dropPending_avoids (h : p k = false) : (dropPending p).avoids k := by
  intro s c e
  simp [e, h]

theorem dropPending_spares (h : p k = false) : (dropPending p).spares (jobSlot rec k) := by
  have : (jobSlot rec k).pk = k := by cases rec <;> rfl
  simp [dropPending, Cmd.spares, this, h]

@[simp] theorem jobSlot_pk (rec : Bool) (k : K) : (jobSlot rec k).pk = k := by
  cases rec <;> rfl

end

/-- What an updated row does, one by one. -/
theorem forall_updateRow {Q : Cmd K → Prop}
    (hkey : i.oldKey ≠ i.newKey → (∀ c ∈ dropDerived rec fun k => decide (k = i.oldKey), Q c) ∧
      Q (dropPending fun k => decide (k = i.oldKey)))
    (hrow : ¬ i.Same → (∀ c ∈ dropDerived rec fun k => decide (k = i.newKey), Q c) ∧
      Q (.enqueue (jobSlot rec i.newKey))) : ∀ c ∈ updateRow rec i, Q c := by
  intro c hc
  unfold updateRow at hc
  split at hc
  · split at hc
    · cases hc
    · rename_i hd
      obtain ⟨hderived, hjob⟩ := hrow fun hs => hd hs.2
      rcases mem_append.mp hc with hc | hc
      · exact hderived c hc
      · rw [mem_singleton.mp hc]
        exact hjob
  · rename_i hk
    obtain ⟨hold, hpending⟩ := hkey hk
    obtain ⟨hderived, hjob⟩ := hrow fun hs => hk hs.1
    rcases mem_append.mp hc with hc | hc
    · exact (mem_append.mp hc).elim (hold c) (hderived c)
    · simp only [mem_cons, not_mem_nil, or_false] at hc
      rcases hc with rfl | rfl
      · exact hpending
      · exact hjob

/-- Deleted and re-keyed rows apart, a row's statements do not concern other keys. -/
theorem updateRow_avoids (h : (i.oldKey ≠ k ∧ i.newKey ≠ k) ∨ i.Same) :
    ∀ c ∈ updateRow rec i, c.avoids k := by
  have hne : ∀ k', k' ≠ k → decide (k = k') = false := fun k' h => decide_eq_false (Ne.symm h)
  refine forall_updateRow (fun hk => ?_) fun hs => ?_
  · have hk' := h.resolve_right fun hs => hk hs.1
    exact ⟨dropDerived_avoids (hne _ hk'.1), dropPending_avoids (hne _ hk'.1)⟩
  · have hk' := h.resolve_right hs
    exact ⟨dropDerived_avoids (hne _ hk'.2), by simpa [Cmd.avoids] using hk'.2⟩

/-- A row deletes pending jobs only of a key it leaves. -/
theorem updateRow_spares (h : i.oldKey ≠ i.newKey → i.oldKey ≠ k) :
    ∀ c ∈ updateRow rec i, c.spares (jobSlot rec k) :=
  forall_updateRow
    (fun hk => ⟨dropDerived_spares, dropPending_spares (decide_eq_false (Ne.symm (h hk)))⟩)
    fun _ => ⟨dropDerived_spares, trivial⟩

/-- A changed row is enqueued last. -/
theorem lasting_updateRow (hne : ¬ i.Same) :
    Lasting (updateRow rec i) (jobSlot rec i.newKey) := by
  have hlast : ∀ cs : List (Cmd K), Lasting (cs ++ [.enqueue (jobSlot rec i.newKey)])
      (jobSlot rec i.newKey) := fun cs => ⟨cs, [], rfl, by simp⟩
  unfold updateRow
  split
  · rename_i hk
    rw [if_neg fun hd => hne ⟨hk, hd⟩]
    exact hlast _
  · have e : ∀ (cs : List (Cmd K)) (a b : Cmd K), cs ++ [a, b] = (cs ++ [a]) ++ [b] := by simp
    rw [e]
    exact hlast _

theorem forall_updateStatement {Q : Cmd K → Prop}
    (hd : ∀ c ∈ dropDerived rec fun k => ((changedDocs imgs).map Prod.fst).contains k, Q c)
    (he : ∀ d ∈ changedDocs imgs, Q (.enqueue (jobSlot rec d.1))) :
    ∀ c ∈ updateStatement rec imgs, Q c := by
  intro c hc
  rcases mem_append.mp hc with hc | hc
  · exact hd c hc
  · obtain ⟨d, hd, rfl⟩ := mem_map.mp hc
    exact he d hd

theorem updateStatement_spares : ∀ c ∈ updateStatement rec imgs, c.spares (jobSlot rec k) :=
  forall_updateStatement dropDerived_spares fun _ _ => trivial

theorem updateStatement_avoids (ho : Orderly imgs)
    (h : ∀ i ∈ imgs, (i.oldKey ≠ k ∧ i.newKey ≠ k) ∨ i.Same) :
    ∀ c ∈ updateStatement rec imgs, c.avoids k := by
  -- a row that kept its key and columns is not among the changed ones
  have hk : ∀ d ∈ changedDocs imgs, d.1 ≠ k := fun d hd => ho.changedDocs_ne h hd
  refine forall_updateStatement (dropDerived_avoids ?_) fun d hd => by
    simpa [Cmd.avoids] using hk d hd
  rw [← Bool.not_eq_true, contains_iff_mem]
  intro hm
  obtain ⟨d, hd, e⟩ := mem_map.mp hm
  exact hk d hd e

variable (source) (rec) (mode : TriggerMode)

/-- What an `UPDATE` does, row by row. -/
theorem forall_onUpdate {Q : Cmd K → Prop}
    (hrow : ∀ i ∈ imgs, ∀ c ∈ updateRow rec i, Q c) (hst : ∀ c ∈ updateStatement rec imgs, Q c) :
    ∀ c ∈ (triggers source rec mode).onUpdate imgs, Q c := by
  intro c hc
  cases mode with
  | row =>
    obtain ⟨i, hi, hc⟩ := mem_flatMap.mp hc
    exact hrow i hi c hc
  | statement =>
    rcases mem_append.mp hc with hc | hc
    · obtain ⟨i, hi, hc⟩ := mem_flatMap.mp hc
      exact hrow i (mem_filter.mp hi).1 c hc
    · exact hst c hc

/-- What an `INSERT` does, row by row. -/
theorem forall_onInsert {rows : List (K × δ)} {Q : Cmd K → Prop}
    (h : ∀ r ∈ rows, (∀ c ∈ dropDerived rec fun k => decide (k = r.1), Q c) ∧
      Q (.enqueue (jobSlot rec r.1))) : ∀ c ∈ (triggers source rec mode).onInsert rows, Q c := by
  intro c hc
  cases mode with
  | statement =>
    obtain ⟨r, hr, rfl⟩ := mem_map.mp hc
    exact (h r (mem_filter.mp hr).1).2
  | row =>
    obtain ⟨r, hr, hc⟩ := mem_flatMap.mp hc
    unfold insertRow at hc
    split at hc
    · rcases mem_append.mp hc with hc | hc
      · exact (h r hr).1 c hc
      · rw [mem_singleton.mp hc]
        exact (h r hr).2
    · cases hc

/-- An `UPDATE` enqueues every row that changed, and nothing deletes the job again. -/
theorem lasting_onUpdate (ho : Orderly imgs) (hi : i ∈ imgs) (hne : ¬ i.Same) :
    Lasting ((triggers source rec mode).onUpdate imgs) (jobSlot rec i.newKey) := by
  -- with the row singled out, the later rows spare its job
  have hflat : ∀ js : List (Image K δ), Orderly js → i ∈ js →
      Lasting (js.flatMap (updateRow rec)) (jobSlot rec i.newKey) := by
    intro js hjs hm
    obtain ⟨pre, post, rfl, hpost⟩ := hjs.later hm
    rw [flatMap_append, flatMap_cons]
    refine Lasting.append_left (Lasting.append_right (lasting_updateRow hne) fun c hc => ?_) _
    obtain ⟨i', hi', hc⟩ := mem_flatMap.mp hc
    exact updateRow_spares (hpost i' hi') c hc
  cases mode with
  | row => exact hflat imgs ho hi
  | statement =>
    by_cases hk : i.oldKey = i.newKey
    · have hm := mem_changedDocs_self hi hk hne
      refine Lasting.append_left (Lasting.append_left (lasting_of_mem ?_ ?_) _) _
      · exact mem_map.mpr ⟨_, hm, rfl⟩
      · intro c hc
        obtain ⟨d, -, rfl⟩ := mem_map.mp hc
        exact ⟨_, rfl⟩
    · refine Lasting.append_right (hflat _ ?_ ?_) updateStatement_spares
      · exact List.Pairwise.filter _ ho
      · exact mem_filter.mpr ⟨hi, by simpa using hk⟩

theorem onUpdate_avoids (ho : Orderly imgs)
    (h : ∀ i ∈ imgs, (i.oldKey ≠ k ∧ i.newKey ≠ k) ∨ i.Same) :
    ∀ c ∈ (triggers source rec mode).onUpdate imgs, c.avoids k :=
  forall_onUpdate source rec mode (fun i hi => updateRow_avoids (h i hi))
    (updateStatement_avoids ho h)

/-- A deleted row's jobs and dead jobs go, and its chunks; other keys are not concerned. -/
theorem onDelete_avoids (h : k ∉ ds.map Prod.fst) :
    ∀ c ∈ (triggers source rec mode).onDelete ds, c.avoids k := by
  have hk : (ds.map Prod.fst).contains k = false := by
    rw [← Bool.not_eq_true, contains_iff_mem]
    exact h
  intro c hc
  cases mode with
  | row =>
    obtain ⟨d, hd, hc⟩ := mem_flatMap.mp hc
    have hne : decide (k = d.1) = false :=
      decide_eq_false fun e => h (e ▸ mem_map_of_mem hd)
    rcases mem_append.mp hc with hc | hc
    · exact dropDerived_avoids (p := fun x => decide (x = d.1)) hne c hc
    · rw [mem_singleton.mp hc]
      exact dropPending_avoids (p := fun x => decide (x = d.1)) hne
  | statement =>
    rcases mem_append.mp hc with hc | hc
    · simp only [mem_cons, not_mem_nil, or_false] at hc
      rcases hc with rfl | rfl
      · intro s e
        change (ds.map Prod.fst).contains s.pk = false
        rw [e]
        exact hk
      · exact dropPending_avoids (p := fun x => (ds.map Prod.fst).contains x) hk
    · cases rec with
      | false => cases hc
      | true =>
        rw [mem_singleton.mp hc]
        exact hk

variable {rows : List (K × δ)} {s : Slot K}

theorem onInsert_avoids (h : k ∉ rows.map Prod.fst) :
    ∀ c ∈ (triggers source rec mode).onInsert rows, c.avoids k := by
  refine forall_onInsert source rec mode fun r hr => ?_
  have hne : r.1 ≠ k := fun e => h (e ▸ mem_map_of_mem hr)
  exact ⟨dropDerived_avoids (decide_eq_false hne.symm), by simpa [Cmd.avoids] using hne⟩

/-- Every inserted row with a source is enqueued. -/
theorem lasting_onInsert {d : δ} (hr : (k, d) ∈ rows) (hd : source d ≠ none) :
    Lasting ((triggers source rec mode).onInsert rows) (jobSlot rec k) := by
  have hs : (source d).isSome = true := Option.isSome_iff_ne_none.mpr hd
  cases mode with
  | statement =>
    refine lasting_of_mem (mem_map.mpr ⟨(k, d), mem_filter.mpr ⟨hr, hs⟩, rfl⟩) ?_
    intro c hc
    obtain ⟨r, -, rfl⟩ := mem_map.mp hc
    exact ⟨_, rfl⟩
  | row =>
    obtain ⟨pre, post, rfl⟩ := append_of_mem hr
    have hrow : insertRow source rec (k, d) =
        dropDerived rec (fun x => decide (x = k)) ++ [.enqueue (jobSlot rec k)] := if_pos hs
    change Lasting (List.flatMap _ _) _
    rw [flatMap_append, flatMap_cons, hrow]
    -- later rows delete no pending job
    refine Lasting.append_left (Lasting.append_right ⟨_, [], rfl, by simp⟩ ?_) _
    exact forall_onInsert source rec .row fun _ _ => ⟨dropDerived_spares, trivial⟩

/-! ## 3. Column mode -/

/-- **The triggers of a column-mode entry enqueue every changed row.** -/
theorem rowTriggers_managed (text : δ → Option T) (mode : TriggerMode) :
    RowTriggers text Orderly (triggers text false mode : Triggers K δ) where
  insert_lasts := fun rows k d hr hd => lasting_onInsert text false mode hr hd
  insert_leaves := fun rows k h c hc => (onInsert_avoids text false mode h c hc).leaves
  update_lasts := by
    intro imgs ho i hi
    by_cases hs : i.Same
    · exact .inl hs
    · exact .inr (lasting_onUpdate text false mode ho hi hs)
  update_leaves := fun imgs ho k h c hc => (onUpdate_avoids text false mode ho h c hc).leaves
  delete_leaves := fun ds k h c hc => (onDelete_avoids text false mode h c hc).leaves

/-! ## 4. Recursive entries -/

omit [DecidableEq K] in
theorem dropDerived_cuts (h : p k = true) : Cuts (dropDerived true p) k :=
  ⟨p, mem_cons_self, h⟩

theorem updateRow_cuts (hne : ¬ i.Same) : Cuts (updateRow true i) i.oldKey := by
  unfold updateRow
  split
  · rename_i hk
    rw [if_neg fun hd => hne ⟨hk, hd⟩]
    exact (dropDerived_cuts (p := fun x => decide (x = i.newKey)) (by simp [hk])).mono
      fun c hc => mem_append_left _ hc
  · exact (dropDerived_cuts (p := fun x => decide (x = i.oldKey)) (by simp)).mono
      fun c hc => mem_append_left _ (mem_append_left _ hc)

/-- The chunks of every changed document are deleted. -/
theorem onUpdate_cuts (hi : i ∈ imgs) (hne : ¬ i.Same) :
    Cuts ((triggers source true mode).onUpdate imgs) i.oldKey := by
  cases mode with
  | row => exact (updateRow_cuts hne).mono fun c hc => mem_flatMap.mpr ⟨i, hi, hc⟩
  | statement =>
    by_cases hk : i.oldKey = i.newKey
    · have hm := mem_changedDocs_self hi hk hne
      have hcut : Cuts (updateStatement true imgs) i.oldKey := by
        refine (dropDerived_cuts (p := fun k => ((changedDocs imgs).map Prod.fst).contains
          k) ?_).mono
          fun c hc => mem_append_left _ hc
        rw [contains_iff_mem, hk]
        exact mem_map.mpr ⟨_, hm, rfl⟩
      exact hcut.mono fun c hc => mem_append_right _ hc
    · have hmem : i ∈ imgs.filter fun i => decide (i.oldKey ≠ i.newKey) :=
        mem_filter.mpr ⟨hi, by simpa using hk⟩
      exact (updateRow_cuts hne).mono fun c hc =>
        mem_append_left _ (mem_flatMap.mpr ⟨i, hmem, hc⟩)

theorem onDelete_cuts {d : K × δ} (hd : d ∈ ds) :
    Cuts ((triggers source true mode).onDelete ds) d.1 := by
  cases mode with
  | row =>
    exact (dropDerived_cuts (p := fun x => decide (x = d.1)) (by simp)).mono fun c hc =>
      mem_flatMap.mpr ⟨d, hd, mem_append_left _ hc⟩
  | statement =>
    refine ⟨fun k => (ds.map Prod.fst).contains k, ?_, ?_⟩
    · exact mem_append_right _ (by simp)
    · rw [contains_iff_mem]
      exact mem_map_of_mem hd

/-- An `UPDATE` enqueues documents it leaves with a row. -/
theorem enqueue_mem_updateRow {rec : Bool} (h : .enqueue s ∈ updateRow rec i) :
    s = jobSlot rec i.newKey := by
  have hno : ∀ p, ∀ c ∈ dropDerived rec p, c = .enqueue s → s = jobSlot rec i.newKey :=
    fun p c hc e => absurd (e ▸ hc) (enqueue_notMem_dropDerived s)
  exact forall_updateRow (fun _ => ⟨hno _, fun e => by cases e⟩)
    (fun _ => ⟨hno _, fun e => (Cmd.enqueue.inj e).symm⟩) _ h rfl

theorem enqueue_mem_onUpdate
    (h : .enqueue s ∈ (triggers source rec mode).onUpdate imgs) :
    ∃ i ∈ imgs, s = jobSlot rec i.newKey := by
  refine forall_onUpdate source rec mode
    (Q := fun c => c = .enqueue s → ∃ i ∈ imgs, s = jobSlot rec i.newKey)
    (fun i hi c hc e => ⟨i, hi, enqueue_mem_updateRow (e ▸ hc)⟩)
    (forall_updateStatement (fun c hc e => absurd (e ▸ hc) (enqueue_notMem_dropDerived s))
      ?_) _ h rfl
  intro d hd e
  obtain ⟨n, hn, -, -, -, -, rfl⟩ := mem_changedDocs.mp hd
  exact ⟨n, hn, (Cmd.enqueue.inj e).symm⟩

theorem enqueue_mem_onInsert
    (h : .enqueue s ∈ (triggers source rec mode).onInsert rows) : ∃ r ∈ rows, s = jobSlot rec r.1 :=
  forall_onInsert source rec mode (Q := fun c => c = .enqueue s → ∃ r ∈ rows, s = jobSlot rec r.1)
    (fun r hr => ⟨fun _ hc e => absurd (e ▸ hc) (enqueue_notMem_dropDerived s),
      fun e => ⟨r, hr, (Cmd.enqueue.inj e).symm⟩⟩) _ h rfl

theorem enqueue_notMem_onDelete (ds : List (K × δ)) (s : Slot K) :
    .enqueue s ∉ (triggers source rec mode).onDelete ds := by
  intro h
  cases mode with
  | row =>
    obtain ⟨d, -, h⟩ := mem_flatMap.mp h
    rcases mem_append.mp h with h | h
    · exact enqueue_notMem_dropDerived s h
    · simp [dropPending] at h
  | statement => cases rec <;> simp [triggers, deleteStatement, dropPending] at h

/-- **The triggers of a recursive entry.** -/
theorem docTriggers_managed :
    DocTriggers source (triggers source true mode : Triggers K δ) where
  insert_lasts := fun rows k d hr hd => lasting_onInsert source true mode hr hd
  insert_avoids := fun rows k h => onInsert_avoids source true mode h
  update_lasts := fun imgs ho i hi hne _ => lasting_onUpdate source true mode ho hi hne
  update_cuts := fun imgs i hi hne => onUpdate_cuts source mode hi hne
  update_avoids := fun imgs ho k h => onUpdate_avoids source true mode ho h
  delete_cuts := fun ds d hd => onDelete_cuts source mode hd
  delete_avoids := fun ds k h => onDelete_avoids source true mode h
  truncate_cuts := fun k => ⟨_, mem_cons_self, rfl⟩
  truncate_purges := by
    intro s _
    refine ⟨⟨_, mem_cons_of_mem _ mem_cons_self, by simp⟩, ?_⟩
    simp [triggers]
  truncate_enqueues := fun s => by simp [triggers]
  enqueues := by
    intro s
    refine ⟨fun rows h => ?_, fun imgs h => ?_, fun ds => enqueue_notMem_onDelete source true
      mode ds s⟩
    · obtain ⟨r, -, rfl⟩ := enqueue_mem_onInsert source true mode h
      rfl
    · obtain ⟨i, -, rfl⟩ := enqueue_mem_onUpdate source true mode h
      rfl

end Commands

end Postvec.Managed
