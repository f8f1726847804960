import Postvec.Extension.WriteBackRows

/-!
# No job is lost in a write-back

* `ClaimedGroup`: the group is what a claim left in the queue;
* `Conserved`: each job of the group has one fate, and the database is as the fates say;
* **`writeBack_conserves`**: whatever aborts, in one go or row by row;
* `failed_migration_row_by_row`: the two ways differ when the column of a running migration is gone,
  because the first row fails the migration and the others follow the routing after that.
-/

namespace Postvec.WriteBack

open List

variable {K V N : Type*} [DecidableEq K]

/-- The jobs of the group have different ids and are claimed in the queue, under the key and with
the attempts the worker read; only of a closed entry they may have been purged. -/
structure ClaimedGroup (s : Store K V N) (g : Group K V) : Prop where
  distinct : g.ids.Nodup
  claimed : ∀ i ∈ g.items, ∀ j ∈ s.queue.jobs, j.id = i.id → j.claimed = true ∧ j.slot = i.slot
  attempts : ∀ x ∈ g.embeds, ∀ j ∈ s.queue.jobs, j.id = x.1.id → j.attempts = x.1.attempts
  present : ∀ i ∈ g.items, (∃ j ∈ s.queue.jobs, j.id = i.id) ∨ Closed s.cat
  given : ∀ i ∈ g.items, i.id < s.queue.nextId
  alive : ∀ i ∈ g.items, ∀ d ∈ s.queue.dead, d.id ≠ i.id

/-- A job of the group that was written has put its vector `v` into the row `t`. -/
def WrittenTo (fate : Nat → Fate) (g : Group K V) (recursive : Bool) (t : Target K) (v : V) :
    Prop :=
  ∃ j, (j, ItemOutcome.ok v) ∈ g.embeds ∧ fate j.id = .written ∧ j.target recursive = t

/-- **Conservation.** Every job of the group has one fate: its vector was written, or its row was
nulled, where the row still exists, and the job is deleted; it is deleted because the entry is gone,
disabled or quarantined, or because its chunk is obsolete; it is pending under its key; or it is in
`jobs_dead`, once. -/
structure Conserved (C : Config V) (expected : EmbedRouting N) (g : Group K V)
    (s s' : Store K V N) (fate : Nat → Fate) : Prop where
  /-- no job of the group is still in the queue, so none is claimed -/
  unclaimed : ∀ j ∈ s'.queue.jobs, j.id ∉ g.ids
  dead : ∀ i ∈ g.items,
    (s'.queue.dead.map Job.id).count i.id = if fate i.id = .dead then 1 else 0
  released : ∀ i ∈ g.items, fate i.id = .released → s'.queue.Pending i.slot
  /-- no other key becomes pending -/
  keys : ∀ slot, s'.queue.Pending slot →
    s.queue.Pending slot ∨ ∃ i ∈ g.items, fate i.id = .released ∧ i.slot = slot
  dropped : ∀ i ∈ g.items, fate i.id = .dropped → Closed s'.cat
  obsolete : ∀ i ∈ g.items, fate i.id = .obsolete →
    isRecursive s'.cat = true ∧ ∃ j v, i = .embed (j, .ok v) ∧ s'.cells j.chunkRow = none
  written : ∀ i ∈ g.items, fate i.id = .written → ∃ j v, i = .embed (j, .ok v) ∧
    (isRecursive s'.cat = true → (s'.cells j.chunkRow).isSome) ∧
    ∀ r, s'.cells (j.target (isRecursive s'.cat)) = some r →
      ∃ v', r expected.vectorColumn = some v' ∧
        WrittenTo fate g (isRecursive s'.cat) (j.target (isRecursive s'.cat)) v'
  nulled : ∀ i ∈ g.items, fate i.id = .nulled → ∃ j, i = .null j ∧
    ∀ r, s'.cells (.row j.pk) = some r → ∀ c ∈ emptyColumns s'.cat, r c = none ∨
      ∃ v, r c = some v ∧ WrittenTo fate g (isRecursive s'.cat) (.row j.pk) v
  /-- no other row is touched -/
  others : ∀ t, (∀ j ∈ g.nulls, fate j.id = .nulled → .row j.pk ≠ t) →
    (∀ x ∈ g.embeds, fate x.1.id = .written → x.1.target (isRecursive s'.cat) ≠ t) →
    s'.cells t = s.cells t
  retry : ∀ j, (j, ItemOutcome.retry) ∈ g.embeds → j.attempts ≤ C.maxRetries → fate j.id ≠ .dead

section Proof

variable {C : Config V} {expected : EmbedRouting N} {fate : Nat → Fate} {g : Group K V}
  {s s' : Store K V N}

omit [DecidableEq K] in
theorem ClaimedGroup.claims (h : ClaimedGroup s g) : Claims s.queue (g.items.map Item.id) where
  nodup := g.ids_eq ▸ h.distinct
  old := by
    intro n hn
    obtain ⟨i, hi, rfl⟩ := mem_map.mp hn
    exact h.given i hi
  claimed := by
    intro j hj hn
    obtain ⟨i, hi, he⟩ := mem_map.mp hn
    exact (h.claimed i hi j hj he.symm).1

omit [DecidableEq K] in
theorem ClaimedGroup.known (h : ClaimedGroup s g) {i : Item K V} (hi : i ∈ g.items) :
    Known s i where
  slot := fun j hj he => (h.claimed i hi j hj he).2
  attempts := by
    rintro j hj x rfl he
    exact h.attempts x (embed_of_mem_items hi) j hj he
  present := h.present i hi

variable {t : Target K} {v : V} {r : Cells V} {items : List (Item K V)}

section Ends

variable (h : Ends C expected fate g.items s s')
include h

/-- A vector in a row that is there was written by a job of the group. -/
theorem Ends.writtenTo
    (hv : (t, v) ∈ vectors fate (isRecursive s'.cat) g.items) (ht : (s'.cells t).isSome) :
    WrittenTo fate g (isRecursive s'.cat) t v := by
  obtain ⟨j, hj, hf | hf, rfl⟩ := mem_vectors hv
  · exact ⟨j, embed_of_mem_items hj, hf, rfl⟩
  · -- an obsolete job has no row
    have hno := h.obsolete j v hj hf
    cases hr : isRecursive s'.cat with
    | false => simp [EmbedJob.there, hr] at hno
    | true =>
      rw [hr] at ht
      simp [EmbedJob.there, hr, EmbedJob.target] at hno ht
      rw [hno] at ht
      cases ht

/-- What the accounts say of the rows. -/
theorem Ends.row_cases (ht : s'.cells t = some r) :
    ∃ r₀, s.cells t = some r₀ ∧
      ((∃ v, WrittenTo fate g (isRecursive s'.cat) t v ∧
          r = (emptied (emptyColumns s'.cat) (nulledPks fate g.items) t r₀).set
            expected.vectorColumn (some v)) ∨
        ((∀ v, (t, v) ∉ vectors fate (isRecursive s'.cat) g.items) ∧
          r = emptied (emptyColumns s'.cat) (nulledPks fate g.items) t r₀)) := by
  cases h₀ : s.cells t with
  | none =>
    rw [h.effect.absent t h₀] at ht
    cases ht
  | some r₀ =>
    refine ⟨r₀, rfl, ?_⟩
    rcases h.effect.present t r₀ h₀ with ⟨v, hv, hr⟩ | ⟨hno, hr⟩ <;>
      rw [ht, Option.some.injEq] at hr
    · exact .inl ⟨v, h.writtenTo hv (by rw [ht]; rfl), hr⟩
    · exact .inr ⟨hno, hr⟩

theorem Ends.written_row {j : EmbedJob K} (hj : .embed (j, .ok v) ∈ g.items)
    (hf : fate j.id = .written)
    (hr : s'.cells (j.target (isRecursive s'.cat)) = some r) :
    ∃ v', r expected.vectorColumn = some v' ∧
      WrittenTo fate g (isRecursive s'.cat) (j.target (isRecursive s'.cat)) v' := by
  obtain ⟨r₀, -, ⟨v', hw, rfl⟩ | ⟨hno, -⟩⟩ := h.row_cases hr
  · exact ⟨v', by simp [Cells.set], hw⟩
  · refine absurd (mem_filterMap.mpr ⟨_, hj, ?_⟩) (hno v)
    exact if_pos (.inl hf)

theorem Ends.nulled_row {j : NullJob K} (hj : .null j ∈ g.items) (hf : fate j.id = .nulled)
    (hr : s'.cells (.row j.pk) = some r) {c : Text} (hc : c ∈ emptyColumns s'.cat) :
    r c = none ∨ ∃ v, r c = some v ∧ WrittenTo fate g (isRecursive s'.cat) (.row j.pk) v := by
  have hpk : Target.row j.pk ∈ (nulledPks fate g.items).map Target.row :=
    mem_map_of_mem (mem_filterMap.mpr ⟨_, hj, if_pos hf⟩)
  have hempty : ∀ r₀ : Cells V,
      emptied (emptyColumns s'.cat) (nulledPks fate g.items) (.row j.pk) r₀ c = none := by
    intro r₀
    rw [emptied, if_pos hpk, if_pos hc]
  obtain ⟨r₀, -, ⟨v, hw, rfl⟩ | ⟨-, rfl⟩⟩ := h.row_cases hr
  · by_cases hcol : c = expected.vectorColumn
    · exact .inr ⟨v, by simp [Cells.set, hcol], hw⟩
    · exact .inl (by simp only [Cells.set, if_neg hcol, hempty])
  · exact .inl (hempty r₀)

theorem Ends.other_row (hn : ∀ j ∈ g.nulls, fate j.id = .nulled → .row j.pk ≠ t)
    (hw : ∀ x ∈ g.embeds, fate x.1.id = .written → x.1.target (isRecursive s'.cat) ≠ t) :
    s'.cells t = s.cells t := by
  cases ht : s'.cells t with
  | none =>
    have hsome := h.effect.isSome t
    rw [ht] at hsome
    exact (Option.isSome_eq_false_iff.mp hsome.symm |> Option.isNone_iff_eq_none.mp).symm
  | some r =>
    obtain ⟨r₀, h₀, ⟨v, ⟨j, hj, hf, htt⟩, -⟩ | ⟨-, rfl⟩⟩ := h.row_cases ht
    · exact absurd htt (hw _ hj hf)
    · have hpk : t ∉ (nulledPks fate g.items).map Target.row := by
        intro hmem
        obtain ⟨pk, hpk, rfl⟩ := mem_map.mp hmem
        obtain ⟨i, hi, hpk⟩ := mem_filterMap.mp hpk
        cases i with
        | embed x => cases hpk
        | null j =>
          simp only [Item.nulledPk] at hpk
          split at hpk
          · rename_i hf
            cases hpk
            exact hn j (null_of_mem_items hi) hf rfl
          · cases hpk
      rw [h₀, emptied, if_neg hpk]

/-- Conservation, from an account and what it says of the keys. -/
theorem Ends.conserved (hg : Grounded fate s.queue g.items)
    (hc : ClaimedGroup s g) (hun : ∀ j ∈ s'.queue.jobs, j.id ∉ g.ids)
    (hrel : ∀ i ∈ g.items, fate i.id = .released → s'.queue.Pending i.slot)
    (hkeys : ∀ slot, s'.queue.Pending slot →
      s.queue.Pending slot ∨ ∃ i ∈ g.items, fate i.id = .released ∧ i.slot = slot) :
    Conserved C expected g s s' fate where
  unclaimed := hun
  dead := by
    intro i hi
    have hzero : (s.queue.dead.map Job.id).count i.id = 0 := by
      refine count_eq_zero_of_not_mem fun hmem => ?_
      obtain ⟨d, hd, he⟩ := mem_map.mp hmem
      exact hc.alive i hi d hd he
    rw [h.buries.count, hzero, Nat.zero_add]
    by_cases hf : fate i.id = .dead
    · obtain ⟨j, hj, he⟩ := hg i hi (.inr hf)
      rw [if_pos ⟨mem_map_of_mem hi, hf⟩, if_pos hf, s.queue.ids_nodup.count,
        if_pos (he ▸ mem_map_of_mem hj)]
    · rw [if_neg fun hc => hf hc.2, if_neg hf]
  released := hrel
  keys := hkeys
  dropped := h.dropped
  obsolete := by
    intro i hi hf
    have hlaw := h.lawful i hi
    rw [hf] at hlaw
    obtain ⟨j, v, rfl⟩ := hlaw
    have hno := h.obsolete j v hi hf
    rw [EmbedJob.there, Bool.or_eq_false_iff] at hno
    exact ⟨by simpa using hno.1, j, v, rfl, by simpa using hno.2⟩
  written := by
    intro i hi hf
    have hlaw := h.lawful i hi
    rw [hf] at hlaw
    obtain ⟨j, v, rfl⟩ := hlaw
    refine ⟨j, v, rfl, fun hr => ?_, fun r => h.written_row hi hf⟩
    have hth := h.written j v hi hf
    rw [EmbedJob.there, hr] at hth
    exact hth
  nulled := by
    intro i hi hf
    have hlaw := h.lawful i hi
    rw [hf] at hlaw
    obtain ⟨j, rfl⟩ := hlaw
    exact ⟨j, rfl, fun r hr c hcol => h.nulled_row hi hf hr hcol⟩
  others := fun t hn hw => h.other_row hn hw
  retry := by
    intro j hj ha hf
    have hlaw := h.lawful _ (mem_items_embed hj)
    rw [show fate (Item.embed (j, ItemOutcome.retry)).id = .dead from hf] at hlaw
    exact absurd (hlaw j rfl) (Nat.not_lt.mpr ha)

end Ends

/-- The fates after a quarantine: the jobs that had been released are dropped with the queue. -/
def purged (fate : Nat → Fate) (n : Nat) : Fate := if fate n = .released then .dropped else fate n

theorem purged_eq {n : Nat} {f : Fate} (h₁ : f ≠ .released) (h₂ : f ≠ .dropped) :
    purged fate n = f ↔ fate n = f := by
  unfold purged
  split
  · rename_i hr
    rw [hr]
    exact ⟨fun h => absurd h.symm h₂, fun h => absurd h.symm h₁⟩
  · exact Iff.rfl

theorem Ends.purge (h : Ends C expected fate items s s')
    (hq : s'.queue.jobs = []) (hcl : Closed s'.cat) : Ends C expected (purged fate) items s s' where
  buries := h.buries.fate_congr fun n _ => (purged_eq (by decide) (by decide)).symm
  leaves := .inr ⟨hq, hcl⟩
  next := h.next
  effect := by
    have hn : nulledPks (purged fate) items = nulledPks fate items := by
      refine filterMap_congr fun i _ => ?_
      cases i with
      | null j => simp only [Item.nulledPk, purged_eq (show Fate.nulled ≠ _ by decide) (by decide)]
      | embed x => rfl
    have hv : vectors (purged fate) (isRecursive s'.cat) items =
        vectors fate (isRecursive s'.cat) items := by
      refine filterMap_congr fun i _ => ?_
      cases i with
      | null j => rfl
      | embed x =>
        obtain ⟨j, o⟩ := x
        cases o with
        | ok v =>
          simp only [Item.vector, purged_eq (show Fate.written ≠ _ by decide) (by decide),
            purged_eq (show Fate.obsolete ≠ _ by decide) (by decide)]
        | dead | retry => rfl
    rw [hn, hv]
    exact h.effect
  dropped := fun _ _ _ => hcl
  written := fun j v hi hf => h.written j v hi ((purged_eq (by decide) (by decide)).mp hf)
  obsolete := fun j v hi hf => h.obsolete j v hi ((purged_eq (by decide) (by decide)).mp hf)
  lawful := by
    intro i hi
    have hlaw := h.lawful i hi
    unfold purged
    split
    · trivial
    · exact hlaw

/-- Conservation, from any account of the group. -/
theorem Ends.conserves (h : Ends C expected fate g.items s s') (hg : Grounded fate s.queue g.items)
    (hc : ClaimedGroup s g) : ∃ fate', Conserved C expected g s s' fate' := by
  rcases h.leaves with hl | ⟨hq, hcl⟩
  · refine ⟨fate, h.conserved hg hc ?_ ?_ ?_⟩
    · rw [Group.ids_eq]
      intro j hj hid
      rcases hl.left j hj with ⟨-, hn⟩ | ⟨-, hge, -⟩
      · exact hn hid
      · have := hc.claims.old _ hid
        omega
    · intro i hi hf
      obtain ⟨j, hj, he⟩ := hg i hi (.inl hf)
      rw [← (hc.claimed i hi j hj he).2]
      exact hl.released j hj (he ▸ mem_map_of_mem hi) (he ▸ hf)
    · intro slot hp
      rcases (hl.pending_iff slot).mp hp with ⟨j, hj, -, hcl, hs⟩ | ⟨j, hj, hid, hf, hs⟩
      · exact .inl ⟨j, hj, hcl, hs⟩
      · obtain ⟨i, hi, he⟩ := mem_map.mp hid
        exact .inr ⟨i, hi, he ▸ hf, (hc.claimed i hi j hj he.symm).2 ▸ hs⟩
  · refine ⟨purged fate, (h.purge hq hcl).conserved ?_ hc (by simp [hq]) ?_ ?_⟩
    · intro i hi hf
      refine hg i hi (.inr ?_)
      rcases hf with hf | hf
      · unfold purged at hf
        split at hf
        · cases hf
        · contradiction
      · exact (purged_eq (by decide) (by decide)).mp hf
    · intro i _ hf
      unfold purged at hf
      split at hf
      · cases hf
      · contradiction
    · rintro slot ⟨j, hj, -⟩
      rw [hq] at hj
      cases hj

omit [DecidableEq K] in
/-- Jobs of different ids can have any fates. -/
theorem exists_fate (h : (items.map Item.id).Nodup)
    (f : Item K V → Fate) : ∃ fate : Nat → Fate, ∀ i ∈ items, fate i.id = f i := by
  refine ⟨fun n => (items.find? fun i => i.id = n).elim .dropped f, fun i hi => ?_⟩
  cases hfind : items.find? fun i' => i'.id = i.id with
  | none => simpa using List.find?_eq_none.mp hfind i hi
  | some i' =>
    have hid : i'.id = i.id := by simpa using List.find?_some hfind
    have he : i' = i := inj_on_of_nodup_map h (mem_of_find?_eq_some hfind) hi hid
    show (items.find? fun i' => i'.id = i.id).elim .dropped f = f i
    rw [hfind, he]
    rfl

end Proof

variable [DecidableEq N]

/-- **No job is lost in a write-back.** For every group of claimed jobs, every state of the entry
and every pattern of transactions that abort: each job ends in one of the ways of `Conserved`; for
a live column-mode entry the counts add up to the number of jobs; and where no single row is
rejected, the rows one by one leave the rows of the table, the keys of the queue and the dead jobs
that the group would, unless the column of the live migration is gone. -/
theorem writeBack_conserves (C : Config V) (expected : EmbedRouting N) (aborts : Bool)
    (fails : Nat → Bool) (s : Store K V N) (g : Group K V) (hg : ClaimedGroup s g) :
    (∃ fate, Conserved C expected g s (writeBack C expected aborts fails s g).1 fate) ∧
    (∀ e, LiveColumn s.cat e →
      (writeBack C expected aborts fails s g).2.total = g.ids.length) ∧
    (g.ids ≠ [] → (∀ n ∈ g.ids, fails n = false) → (∀ e, ¬ Gone s.cat e) →
      OneVector g (isRecursive s.cat) →
      Same (writeBack C expected true fails s g).1 (writeBack C expected false fails s g).1) := by
  have hrows : ∀ total : Applied, applyRows
      (fun s one => if one.ids.any fails then none else some (applyGroup C expected s one))
      (fun s id => releaseFailedGroup C s [id]) s total g.singles =
        runRows C expected fails s total g.items := by
    intro total
    rw [runRows, Group.singles_eq]
  have hlen : g.ids.length = g.items.length := by rw [Group.ids_eq, length_map]
  refine ⟨?_, ?_, ?_⟩
  · cases aborts with
    | true =>
      obtain ⟨fate, hends, hgr, -⟩ := runRows_ends C expected fails g.items s .zero hg.claims
        (fun i hi => hg.known hi) (ordered_items g)
      rw [writeBack, if_pos rfl, hrows]
      exact hends.conserves hgr hg
    | false =>
      obtain ⟨fate, hf⟩ := exists_fate hg.claims.nodup (ending C expected s.cat s.cells)
      have hends := applyGroup_ends (Group.ids_eq g ▸ hg.claims) hf
      rw [writeBack, if_neg (by decide)]
      refine hends.conserves (fun i hi hfi => ?_) hg
      rcases hg.present i hi with hp | hcl
      · exact hp
      · rw [hf i hi, ending_closed hcl] at hfi
        simp at hfi
  · intro e he
    cases aborts with
    | true =>
      rw [writeBack, if_pos rfl, hrows,
        runRows_total fails g.items s .zero he hg.claims fun i hi => hg.known hi, hlen]
      exact Nat.zero_add _
    | false =>
      rw [writeBack, if_neg (by decide)]
      exact applyGroup_total he g
  · intro hne hno hgone hv
    rw [writeBack, if_pos rfl, hrows, writeBack, if_neg (by decide)]
    have hno' : ∀ i ∈ g.items, fails i.id = false := fun i hi =>
      hno _ (Group.ids_eq g ▸ mem_map_of_mem hi)
    have hne' : g.items ≠ [] := fun hc => hne (by rw [Group.ids_eq, hc]; rfl)
    exact same_rows hg.claims (fun i hi => hg.known hi) hno' hne' hgone hv .zero

/-! Two rows whose source is NULL, in the middle of a migration. -/

/-- `UPDATE .. FROM` takes the first match. -/
def firstPick : Pick Nat where
  choose := List.head?
  mem := fun _ _ h => mem_of_head? h
  total := fun _ h => by simpa using h

def plainConfig : Config Nat := ⟨5, fun _ => 3, firstPick⟩

/-- The migration from model 0 to model 1, and the columns of the table. -/
def migratingCatalog (columns : List (Text × Nat)) : Catalog Nat where
  entry := some ⟨0, none, 3, ['v'], .migrating, false, false⟩
  migrations := [⟨1, 1, 3, none, ['w'], .manual, .running⟩]
  columns := columns
  indexed := false
  sound := true
  nextId := 2

/-- The jobs of rows 0 and 1 are claimed; both rows hold a vector in the old column. -/
def nullStore (columns : List (Text × Nat)) : Store Nat Nat Nat where
  cat := migratingCatalog columns
  queue := ((Queue.empty.insertPending (rowSlot 0) 0).insertPending (rowSlot 1) 0).claim
    fun _ => true
  cells := fun t => if t = .row 0 ∨ t = .row 1 then some fun c => if c = ['v'] then some 7 else none
    else none

def nullGroup : Group Nat Nat := ⟨[⟨0, 0⟩, ⟨1, 1⟩], []⟩

def claimedRouting : EmbedRouting Nat := ⟨some 1, 1, none, ['w'], 3⟩

/-- The new column was dropped while the migration runs. In one go both jobs are released, and no
row is touched. Row by row the first job fails the migration and is released; the second finds the
old routing, its row is nulled and its job deleted. -/
theorem failed_migration_row_by_row :
    (writeBack plainConfig claimedRouting false (fun _ => false)
        (nullStore [(['v'], 3)]) nullGroup).1.queue.hasPending (rowSlot 1) = true ∧
    ((writeBack plainConfig claimedRouting false (fun _ => false)
        (nullStore [(['v'], 3)]) nullGroup).1.cells (.row 1)).map (fun r => r ['v']) =
      some (some 7) ∧
    (writeBack plainConfig claimedRouting true (fun _ => false)
        (nullStore [(['v'], 3)]) nullGroup).1.queue.hasPending (rowSlot 1) = false ∧
    ((writeBack plainConfig claimedRouting true (fun _ => false)
        (nullStore [(['v'], 3)]) nullGroup).1.cells (.row 1)).map (fun r => r ['v']) =
      some none := by
  decide

/-- The jobs of rows 0 to 3 are claimed; both columns are there. -/
def mixedStore : Store Nat Nat Nat where
  cat := migratingCatalog [(['v'], 3), (['w'], 3)]
  queue := ((List.range 4).foldl (fun q k => q.insertPending (rowSlot k) 0) Queue.empty).claim
    fun _ => true
  cells := fun t =>
    if t ∈ (List.range 4).map Target.row then some fun c =>
      if c = ['v'] then some 7 else none else none

/-- The source of row 0 is NULL, row 1 has a vector, row 2 is to be tried again, row 3 cannot be
embedded. -/
def mixedGroup : Group Nat Nat :=
  ⟨[⟨0, 0⟩], [(⟨1, 1, none, 1⟩, .ok 9), (⟨2, 2, none, 1⟩, .retry), (⟨3, 3, none, 1⟩, .dead)]⟩

theorem mixedGroup_claimed : ClaimedGroup mixedStore mixedGroup := by
  have hjobs : mixedStore.queue.jobs = [⟨0, rowSlot 0, 1, true⟩, ⟨1, rowSlot 1, 1, true⟩,
      ⟨2, rowSlot 2, 1, true⟩, ⟨3, rowSlot 3, 1, true⟩] := rfl
  have hdead : mixedStore.queue.dead = [] := rfl
  have hnext : mixedStore.queue.nextId = 4 := rfl
  have hitems : mixedGroup.items = [.null ⟨0, 0⟩, .embed (⟨1, 1, none, 1⟩, .ok 9),
      .embed (⟨2, 2, none, 1⟩, .retry), .embed (⟨3, 3, none, 1⟩, .dead)] := rfl
  refine ⟨by decide, ?_, ?_, ?_, ?_, ?_⟩
  · simp [hjobs, hitems, Item.id, Item.slot, rowSlot]
  · simp [hjobs, mixedGroup]
  · simp [hjobs, hitems, Item.id]
  · simp [hnext, hitems, Item.id]
  · simp [hdead]

/-- One job of each outcome, in one go or after an abort. -/
theorem mixedGroup_conserved :
    (∃ fate, Conserved plainConfig claimedRouting mixedGroup mixedStore
      (writeBack plainConfig claimedRouting true (fun _ => false) mixedStore mixedGroup).1 fate) ∧
    (writeBack plainConfig claimedRouting true (fun _ => false) mixedStore mixedGroup).2.total = 4 ∧
    Same (writeBack plainConfig claimedRouting true (fun _ => false) mixedStore mixedGroup).1
      (writeBack plainConfig claimedRouting false (fun _ => false) mixedStore mixedGroup).1 := by
  have h := writeBack_conserves plainConfig claimedRouting true
    (fun _ => false) mixedStore mixedGroup
    mixedGroup_claimed
  refine ⟨h.1, h.2.1 _ ⟨rfl, by decide, by decide, rfl⟩, h.2.2 (by decide) (by simp) ?_ ?_⟩
  · intro e he
    have := he.entry
    cases this
    exact absurd he.gone (by decide)
  · intro j v j' v' hj hj' _
    simp only [mixedGroup, mem_cons, Prod.mk.injEq, ItemOutcome.ok.injEq, reduceCtorEq, and_false,
      not_mem_nil, or_false] at hj hj'
    rw [hj.2, hj'.2]

end Postvec.WriteBack
