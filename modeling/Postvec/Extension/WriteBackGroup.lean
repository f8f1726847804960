import Postvec.Extension.WriteBackSpec

/-!
# A group under its catalog

`apply_group` finds the entry closed, broken, routed to a column that is gone, or ready (`phase`).
`ending` says where each job of the group goes then, and **`applyGroup_ends`** that it goes there:
the queue, `jobs_dead` and the rows are exactly what the fates of the jobs say (`Ends`).
-/

namespace Postvec.WriteBack

open List

variable {K V N : Type*}

/-! ## 1. Items and their endings -/

/-- A job of the group, with its outcome. -/
inductive Item (K V : Type*) where
  | null (j : NullJob K)
  | embed (x : EmbedJob K × ItemOutcome V)

def Item.id : Item K V → Nat
  | .null j => j.id
  | .embed x => x.1.id

def Item.slot : Item K V → Slot K
  | .null j => rowSlot j.pk
  | .embed x => ⟨x.1.pk, .embed, x.1.chunk⟩

def Group.items (g : Group K V) : List (Item K V) := g.nulls.map .null ++ g.embeds.map .embed

theorem Group.ids_eq (g : Group K V) : g.ids = g.items.map Item.id := by
  rw [Group.ids, Group.items, map_append, map_map, map_map]
  rfl

/-- No work is left to do for the entry: it is gone, or disabled. -/
def Closed (c : Catalog N) : Prop := ∀ e, c.entry = some e → e.state = .disabled

/-- The entry is live, and the column it routes to is there. -/
structure Ready (c : Catalog N) (e : RoutedEntry N) : Prop where
  entry : c.entry = some e
  opened : e.state ≠ .disabled
  intact : intact c e = true
  column : columnGone c e = false

/-- The row the vector of a job is for. -/
def EmbedJob.target (recursive : Bool) (j : EmbedJob K) : Target K :=
  if recursive then j.chunkRow else j.row

/-- The row is there, which is asked for chunks only. -/
def EmbedJob.there (recursive : Bool) (c : Target K → Option (Cells V)) (j : EmbedJob K) : Bool :=
  !recursive || (c j.chunkRow).isSome

def isRecursive (c : Catalog N) : Bool := c.entry.any (·.recursive)

/-- The columns a NULL empties. -/
def emptyColumns (c : Catalog N) : List Text :=
  match c.entry with
  | none => []
  | some e => nullColumns c e

section Ending

variable [DecidableEq N] {C : Config V} {expected : EmbedRouting N} {c : Catalog N}
  {cells : Target K → Option (Cells V)}

/-- Where a job goes when its group is applied under the catalog `c`. -/
def ending (C : Config V) (expected : EmbedRouting N) (c : Catalog N)
    (cells : Target K → Option (Cells V)) (i : Item K V) : Fate :=
  match c.entry with
  | none => .dropped
  | some e =>
    if e.state = .disabled then .dropped
    else if !intact c e then .dropped
    else if columnGone c e then .released
    else match i with
      | .null _ => .nulled
      | .embed x =>
        if embedRouting c e ≠ expected then .released
        else settle C expected.dim (x.1.there e.recursive cells) x

theorem ending_closed (h : Closed c) (i : Item K V) :
    ending C expected c cells i = .dropped := by
  unfold ending
  split
  · rfl
  · rename_i e he
    rw [if_pos (h e he)]

theorem ending_ready {e : RoutedEntry N} (h : Ready c e) (i : Item K V) :
    ending C expected c cells i = match i with
      | .null _ => .nulled
      | .embed x =>
        if embedRouting c e ≠ expected then .released
        else settle C expected.dim (x.1.there e.recursive cells) x := by
  simp [ending, h.entry, h.opened, h.intact, h.column]

end Ending

/-- The row a nulled job is for. -/
def Item.nulledPk (fate : Nat → Fate) : Item K V → Option K
  | .null j => if fate j.id = .nulled then some j.pk else none
  | .embed _ => none

/-- The vector of a job that is written, with the row it is for. -/
def Item.vector (fate : Nat → Fate) (recursive : Bool) : Item K V → Option (Target K × V)
  | .embed (j, .ok v) =>
    if fate j.id = .written ∨ fate j.id = .obsolete then some (j.target recursive, v) else none
  | _ => none

def nulledPks (fate : Nat → Fate) (items : List (Item K V)) : List K :=
  items.filterMap (Item.nulledPk fate)

def vectors (fate : Nat → Fate) (recursive : Bool) (items : List (Item K V)) :
    List (Target K × V) :=
  items.filterMap (Item.vector fate recursive)

/-- The fates an item can have. -/
def Lawful (C : Config V) (i : Item K V) : Fate → Prop
  | .written | .obsolete => ∃ j v, i = .embed (j, .ok v)
  | .nulled => ∃ j, i = .null j
  | .dead => ∀ j, i = .embed (j, .retry) → C.maxRetries < j.attempts
  | _ => True

/-- **The account of a write-back**: the jobs `items` end as `fate` says. Either each leaves the
queue on its own, or the entry was quarantined, which emptied its queue, and with it the jobs that
were released before. -/
structure Ends [DecidableEq K] (C : Config V) (expected : EmbedRouting N) (fate : Nat → Fate)
    (items : List (Item K V)) (s s' : Store K V N) : Prop where
  buries : Buries (items.map Item.id) fate s.queue s'.queue
  leaves : Leaves (items.map Item.id) fate s.queue s'.queue ∨
    (s'.queue.jobs = [] ∧ Closed s'.cat)
  next : s.queue.nextId ≤ s'.queue.nextId
  effect : Effect (emptyColumns s'.cat) expected.vectorColumn (nulledPks fate items)
    (vectors fate (isRecursive s'.cat) items) s.cells s'.cells
  dropped : ∀ i ∈ items, fate i.id = .dropped → Closed s'.cat
  written : ∀ j v, .embed (j, .ok v) ∈ items → fate j.id = .written →
    j.there (isRecursive s'.cat) s'.cells = true
  obsolete : ∀ j v, .embed (j, .ok v) ∈ items → fate j.id = .obsolete →
    j.there (isRecursive s'.cat) s'.cells = false
  lawful : ∀ i ∈ items, Lawful C i (fate i.id)

section Apply

variable {C : Config V} {expected : EmbedRouting N} {fate : Nat → Fate}
  {items : List (Item K V)} {s s' : Store K V N}

/-- The job is not written, obsolete or nulled. -/
def Fate.still : Fate → Bool
  | .dropped | .released | .dead => true
  | _ => false

theorem nulledPks_still (h : ∀ i ∈ items, (fate i.id).still = true) :
    nulledPks fate items = [] := by
  refine filterMap_eq_nil_iff.mpr fun i hi => ?_
  cases i with
  | null j =>
    refine if_neg fun hc => ?_
    have := h _ hi
    simp only [Item.id, hc, Fate.still] at this
    cases this
  | embed x => rfl

theorem vectors_still (h : ∀ i ∈ items, (fate i.id).still = true) (r : Bool) :
    vectors fate r items = [] := by
  refine filterMap_eq_nil_iff.mpr fun i hi => ?_
  cases i with
  | null j => rfl
  | embed x =>
    obtain ⟨j, o⟩ := x
    cases o with
    | ok v =>
      refine if_neg fun hc => ?_
      have := h _ hi
      rcases hc with hc | hc <;> simp only [Item.id, hc, Fate.still] at this <;> cases this
    | dead | retry => rfl

theorem fate_of_ids {f : Fate} (h : ∀ i ∈ items, fate i.id = f) :
    ∀ n ∈ items.map Item.id, fate n = f :=
  forall_mem_map.mpr h

variable {e : RoutedEntry N} {g : Group K V} {x : EmbedJob K × ItemOutcome V}

theorem ready_recursive (h : Ready s.cat e) : isRecursive s.cat = e.recursive := by
  simp [isRecursive, h.entry]

theorem ready_emptyColumns (h : Ready s.cat e) : emptyColumns s.cat = nullColumns s.cat e := by
  simp [emptyColumns, h.entry]

/-- The entry is live, but something it needs is gone. -/
structure Broken (c : Catalog N) (e : RoutedEntry N) : Prop where
  entry : c.entry = some e
  opened : e.state ≠ .disabled
  broken : intact c e = false

theorem closed_quarantine (c : Catalog N) : Closed c.quarantine := by
  intro e he
  obtain ⟨e', -, rfl⟩ := Option.map_eq_some_iff.mp he
  rfl

/-- The entry is live, but the column of its migration is gone. -/
structure Gone (c : Catalog N) (e : RoutedEntry N) : Prop where
  entry : c.entry = some e
  opened : e.state ≠ .disabled
  intact : intact c e = true
  gone : columnGone c e = true

/-- The four ways a catalog can be found. -/
theorem phase (c : Catalog N) :
    Closed c ∨ (∃ e, Broken c e) ∨ (∃ e, Gone c e) ∨ ∃ e, Ready c e := by
  cases he : c.entry with
  | none => exact .inl fun e h => by rw [he] at h; cases h
  | some e =>
    by_cases hs : e.state = .disabled
    · exact .inl fun e' h => by rw [he] at h; cases h; exact hs
    · cases hi : intact c e with
      | false => exact .inr (.inl ⟨e, he, hs, hi⟩)
      | true =>
        cases hg : columnGone c e with
        | true => exact .inr (.inr (.inl ⟨e, he, hs, hi, hg⟩))
        | false => exact .inr (.inr (.inr ⟨e, he, hs, hi, hg⟩))

theorem nulledPks_items (h : ∀ j ∈ g.nulls, fate j.id = .nulled) :
    nulledPks fate g.items = g.nulls.map NullJob.pk := by
  have hembeds : g.embeds.filterMap (Item.nulledPk fate ∘ Item.embed) = [] :=
    filterMap_eq_nil_iff.mpr fun _ _ => rfl
  rw [nulledPks, Group.items, filterMap_append, filterMap_map, filterMap_map,
    hembeds, append_nil, ← filterMap_eq_map]
  exact filterMap_congr fun j hj => if_pos (h j hj)

theorem vectors_items (there : EmbedJob K → Bool) (r : Bool)
    (h : ∀ x ∈ g.embeds, fate x.1.id = settle C expected.dim (there x.1) x) :
    vectors fate r g.items =
      (g.embeds.filterMap (okOf C expected.dim)).map fun y => (y.1.target r, y.2) := by
  have hnulls : g.nulls.filterMap (Item.vector (V := V) fate r ∘ Item.null) = [] :=
    filterMap_eq_nil_iff.mpr fun _ _ => rfl
  rw [vectors, Group.items, filterMap_append, filterMap_map, filterMap_map,
    hnulls, nil_append, map_filterMap]
  refine filterMap_congr fun x hx => ?_
  have hf := h x hx
  obtain ⟨j, o⟩ := x
  cases o with
  | dead | retry => rfl
  | ok v =>
    by_cases hw : C.width v ≠ expected.dim
    · simp only [settle, if_pos hw] at hf
      simp [okOf, Item.vector, hw, hf]
    · simp only [settle, if_neg hw] at hf
      have hor : fate j.id = .written ∨ fate j.id = .obsolete := by
        rw [hf]
        split
        · exact .inl rfl
        · exact .inr rfl
      simp [okOf, Item.vector, hw, hor]

theorem mem_items_null {j : NullJob K} (h : j ∈ g.nulls) : Item.null j ∈ g.items :=
  mem_append_left _ (mem_map_of_mem h)

theorem mem_items_embed (h : x ∈ g.embeds) :
    Item.embed x ∈ g.items :=
  mem_append_right _ (mem_map_of_mem h)

theorem embed_of_mem_items (h : Item.embed x ∈ g.items) :
    x ∈ g.embeds := by
  rcases mem_append.mp h with h | h
  · obtain ⟨j, -, hj⟩ := mem_map.mp h
    cases hj
  · obtain ⟨y, hy, hxy⟩ := mem_map.mp h
    cases hxy
    exact hy

theorem null_of_mem_items {j : NullJob K} (h : Item.null j ∈ g.items) : j ∈ g.nulls := by
  rcases mem_append.mp h with h | h
  · obtain ⟨j', hj', he⟩ := mem_map.mp h
    cases he
    exact hj'
  · obtain ⟨x, -, he⟩ := mem_map.mp h
    cases he

theorem fate_items {f : EmbedJob K × ItemOutcome V → Fate}
    (hn : ∀ j ∈ g.nulls, fate j.id = .nulled) (he : ∀ x ∈ g.embeds, fate x.1.id = f x) :
    ∀ i ∈ g.items, (∃ j, i = .null j ∧ fate i.id = .nulled) ∨
      (∃ x, i = .embed x ∧ fate i.id = f x) := by
  intro i hi
  rcases mem_append.mp hi with hi | hi
  · obtain ⟨j, hj, rfl⟩ := mem_map.mp hi
    exact .inl ⟨j, rfl, hn j hj⟩
  · obtain ⟨x, hx, rfl⟩ := mem_map.mp hi
    exact .inr ⟨x, rfl, he x hx⟩

theorem settle_lawful (there : Bool) (x : EmbedJob K × ItemOutcome V) (dim : Nat) :
    Lawful C (.embed x) (settle C dim there x) := by
  obtain ⟨j, o⟩ := x
  cases o with
  | ok v =>
    simp only [settle]
    split
    · intro _ h
      cases h
    · split <;> exact ⟨j, v, rfl⟩
  | dead =>
    intro _ h
    cases h
  | retry =>
    simp only [settle]
    split
    · intro _ h
      cases h
      assumption
    · trivial

/-- A vector of the right length is written where its row is there, and obsolete elsewhere. -/
theorem settle_there {there : Bool} {dim : Nat} :
    settle C dim there x ≠ .dropped ∧ (settle C dim there x = .written → there = true) ∧
      (settle C dim there x = .obsolete → there = false) := by
  obtain ⟨j, o⟩ := x
  cases o with
  | ok v => cases there <;> by_cases hw : C.width v ≠ dim <;> simp [settle, hw]
  | dead => simp [settle]
  | retry => by_cases ha : j.attempts > C.maxRetries <;> simp [settle, ha]

variable [DecidableEq K]

/-- The account where no row is touched. -/
theorem Ends.of_still (hs : ∀ i ∈ items, (fate i.id).still = true) (hcells : s'.cells = s.cells)
    (hb : Buries (items.map Item.id) fate s.queue s'.queue)
    (hl : Leaves (items.map Item.id) fate s.queue s'.queue ∨
      (s'.queue.jobs = [] ∧ Closed s'.cat))
    (hnext : s.queue.nextId ≤ s'.queue.nextId)
    (hd : ∀ i ∈ items, fate i.id = .dropped → Closed s'.cat)
    (hdead : ∀ i ∈ items, fate i.id = .dead → Lawful C i .dead) :
    Ends C expected fate items s s' where
  buries := hb
  leaves := hl
  next := hnext
  effect := by
    rw [nulledPks_still hs, vectors_still hs, hcells]
    exact effect_refl _ _ _
  dropped := hd
  written := by
    intro j v hi hf
    have := hs _ hi
    simp only [Item.id, hf, Fate.still] at this
    cases this
  obsolete := by
    intro j v hi hf
    have := hs _ hi
    simp only [Item.id, hf, Fate.still] at this
    cases this
  lawful := by
    intro i hi
    have hstill := hs i hi
    cases hf : fate i.id with
    | dropped | released => trivial
    | dead => exact hdead i hi hf
    | written | nulled | obsolete => simp [hf, Fate.still] at hstill

/-! ## 2. Writing -/

theorem writeOks_cat (r : Bool) (col : Text) (l : Loop K V) :
    (writeOks C s r col l).1.cat = s.cat := by
  unfold writeOks
  split
  · rfl
  · split <;> rfl

theorem writeOks_leaves (r : Bool) (col : Text) (l : Loop K V)
    (h : ∀ n ∈ l.oks.map (·.1.id), fate n ≠ .released) :
    Leaves (l.oks.map (·.1.id)) fate l.queue (writeOks C s r col l).1.queue := by
  unfold writeOks
  split
  · rename_i he
    rw [List.isEmpty_iff.mp he]
    exact leaves_refl _
  · split <;> exact leaves_deleteJobs _ h

theorem writeOks_dead (r : Bool) (col : Text) (l : Loop K V) :
    (writeOks C s r col l).1.queue.dead = l.queue.dead := by
  unfold writeOks
  split
  · rfl
  · split <;> rfl

theorem writeOks_effect (cols : List Text) (r : Bool) (col : Text) (l : Loop K V) :
    Effect cols col [] (l.oks.map fun y => (y.1.target r, y.2)) s.cells
      (writeOks C s r col l).1.cells := by
  unfold writeOks
  split
  · rename_i he
    rw [List.isEmpty_iff.mp he]
    exact effect_refl _ _ _
  · cases r with
    | true | false => exact effect_updateFrom _ _ _

theorem writeOks_total (col : Text) (l : Loop K V) :
    (writeOks C s false col l).2.total = l.applied.total + l.oks.length := by
  unfold writeOks
  split
  · rename_i he
    rw [List.isEmpty_iff.mp he]
    rfl
  · simp only [Applied.add, Applied.total, Bool.false_eq_true, if_false]
    omega

/-! ## 3. The ways through `apply_group` -/

/-- The jobs of a closed entry are deleted. -/
theorem ends_closed (hcat : Closed s.cat) (hf : ∀ i ∈ g.items, fate i.id = .dropped) :
    Ends C expected fate g.items s { s with queue := deleteIds s.queue g.ids } := by
  have hids := fate_of_ids hf
  have hne : ∀ f, f ≠ Fate.dropped → ∀ n ∈ g.items.map Item.id, fate n ≠ f := by
    intro f hf n hn hc
    exact hf (hc.symm.trans (hids n hn))
  rw [Group.ids_eq]
  exact .of_still (fun i hi => by rw [hf i hi]; rfl) rfl
    (buries_none _ rfl (hne _ (by decide))) (.inl (leaves_deleteJobs _ (hne _ (by decide))))
    (Nat.le_refl _) (fun _ _ _ => hcat) (fun i hi hd => absurd ((hf i hi).symm.trans hd)
      (by decide))

variable [DecidableEq N]

theorem applyGroup_closed (h : Closed s.cat) :
    applyGroup C expected s g = ({ s with queue := deleteIds s.queue g.ids }, .zero) := by
  unfold applyGroup
  split
  · rfl
  · rename_i e he
    rw [if_pos (h e he)]

theorem applyGroup_broken (h : Broken s.cat e) :
    applyGroup C expected s g =
      ({ s with cat := s.cat.quarantine, queue := s.queue.deleteJobs fun _ => true }, .zero) := by
  simp [applyGroup, h.entry, h.opened, h.broken]

theorem ends_broken (h : Broken s.cat e) (hf : ∀ i ∈ g.items, fate i.id = .dropped) :
    Ends C expected fate g.items s (applyGroup C expected s g).1 := by
  rw [applyGroup_broken h]
  have hids := fate_of_ids hf
  refine .of_still (fun i hi => by rw [hf i hi]; rfl) rfl
    (buries_none _ rfl fun n hn hc => absurd ((hids n hn).symm.trans hc) (by decide))
    (.inr ⟨?_, closed_quarantine _⟩) (Nat.le_refl _)
    (fun _ _ _ => closed_quarantine _)
    (fun i hi hd => absurd ((hf i hi).symm.trans hd) (by decide))
  simp [Queue.deleteJobs]

theorem applyGroup_gone (h : Gone s.cat e) :
    applyGroup C expected s g =
      ({ s with cat := failRouted s.cat e, queue := s.queue.unclaimJobs g.ids false },
        ⟨0, 0, g.ids.length, 0⟩) := by
  simp [applyGroup, h.entry, h.opened, h.intact, h.gone]

theorem ends_gone (h : Gone s.cat e) (hf : ∀ i ∈ g.items, fate i.id = .released) :
    Ends C expected fate g.items s (applyGroup C expected s g).1 := by
  rw [applyGroup_gone h, Group.ids_eq]
  have hids := fate_of_ids hf
  exact .of_still (fun i hi => by rw [hf i hi]; rfl) rfl
    (buries_none _ (by simp) fun n hn hc => absurd ((hids n hn).symm.trans hc) (by decide))
    (.inl (leaves_unclaimJobs _ _ hids)) (Queue.le_nextId_unclaimJobs _ _ _)
    (fun i hi hd => absurd ((hf i hi).symm.trans hd) (by decide))
    (fun i hi hd => absurd ((hf i hi).symm.trans hd) (by decide))

/-! ## 4. A live entry -/

/-- The group with its NULL jobs done. -/
def withNulls (s : Store K V N) (e : RoutedEntry N) (g : Group K V) : Store K V N :=
  { s with
    queue := deleteIds s.queue (g.nulls.map NullJob.id)
    cells := nullRows (nullColumns s.cat e) (g.nulls.map NullJob.pk) s.cells }

theorem applyGroup_ready (h : Ready s.cat e) :
    applyGroup C expected s g =
      if !g.embeds.isEmpty && decide (embedRouting s.cat e ≠ expected) then
        ({ withNulls s e g with
            queue := (withNulls s e g).queue.unclaimJobs (g.embeds.map (·.1.id)) false },
          Applied.add ⟨0, g.nulls.length, 0, 0⟩ ⟨0, 0, (g.embeds.map (·.1.id)).length, 0⟩)
      else
        writeOks C (withNulls s e g) e.recursive (embedRouting s.cat e).vectorColumn
          (g.embeds.foldl (applyOutcome C (embedRouting s.cat e).dim)
            ⟨(withNulls s e g).queue, ⟨0, g.nulls.length, 0, 0⟩, []⟩) := by
  simp [applyGroup, h.entry, h.opened, h.intact, h.column, withNulls]

/-- The embed jobs were routed elsewhere. -/
structure Rerouted (expected : EmbedRouting N) (c : Catalog N) (e : RoutedEntry N) (g : Group K V) :
    Prop where
  some : g.embeds ≠ []
  route : embedRouting c e ≠ expected

theorem ends_rerouted (h : Ready s.cat e) (hc : Claims s.queue g.ids)
    (hr : Rerouted expected s.cat e g) (hn : ∀ j ∈ g.nulls, fate j.id = .nulled)
    (he : ∀ x ∈ g.embeds, fate x.1.id = .released) :
    Ends C expected fate g.items s (applyGroup C expected s g).1 := by
  rw [applyGroup_ready h, if_pos (by simp [hr.some, hr.route])]
  have hnull : ∀ n ∈ g.nulls.map NullJob.id, fate n = .nulled := forall_mem_map.mpr hn
  have hembed : ∀ n ∈ g.embeds.map (·.1.id), fate n = .released := forall_mem_map.mpr he
  have hfate := fate_items hn he
  have hno : ∀ f, f ≠ Fate.nulled → f ≠ .released → ∀ i ∈ g.items, fate i.id ≠ f := by
    intro f h₁ h₂ i hi hc
    rcases hfate i hi with ⟨_, -, hf⟩ | ⟨_, -, hf⟩
    · exact h₁ (hc.symm.trans hf)
    · exact h₂ (hc.symm.trans hf)
  have hvec : vectors fate (isRecursive s.cat) g.items = [] := by
    refine filterMap_eq_nil_iff.mpr fun i hi => ?_
    rcases hfate i hi with ⟨j, rfl, -⟩ | ⟨⟨j, o⟩, rfl, hf⟩
    · rfl
    · have hf' : fate j.id = .released := hf
      cases o <;> simp [Item.vector, hf']
  have hdel : Leaves (g.nulls.map NullJob.id) fate s.queue (withNulls s e g).queue :=
    leaves_deleteJobs _ fun n hn' hf => absurd ((hnull n hn').symm.trans hf) (by decide)
  constructor
  · refine buries_none _ (by simp [withNulls, deleteIds]) fun n hn' => ?_
    obtain ⟨i, hi, rfl⟩ := mem_map.mp hn'
    exact hno .dead (by decide) (by decide) i hi
  · rw [← Group.ids_eq]
    exact .inl (hdel.trans (leaves_unclaimJobs _ false hembed) hc.apart)
  · exact (hdel.trans (leaves_unclaimJobs _ false hembed) hc.apart).next
  · show Effect (emptyColumns s.cat) _ _ (vectors fate (isRecursive s.cat) g.items) s.cells
      (withNulls s e g).cells
    rw [hvec, nulledPks_items hn, ready_emptyColumns h]
    exact effect_nullRows _ _
  · exact fun i hi hf => absurd hf (hno .dropped (by decide) (by decide) i hi)
  · exact fun j v hi hf => absurd hf (hno .written (by decide) (by decide) _ hi)
  · exact fun j v hi hf => absurd hf (hno .obsolete (by decide) (by decide) _ hi)
  · intro i hi
    rcases hfate i hi with ⟨j, rfl, hf⟩ | ⟨x, rfl, hf⟩ <;> rw [hf]
    · exact ⟨j, rfl⟩
    · trivial

/-- The write-back of a live entry whose routing is the one of the claim. -/
def looped (C : Config V) (expected : EmbedRouting N) (s : Store K V N) (e : RoutedEntry N)
    (g : Group K V) : Store K V N × Applied :=
  writeOks C (withNulls s e g) e.recursive expected.vectorColumn
    (g.embeds.foldl (applyOutcome C expected.dim)
      ⟨(withNulls s e g).queue, ⟨0, g.nulls.length, 0, 0⟩, []⟩)

theorem applyGroup_looped (h : Ready s.cat e)
    (hr : g.embeds = [] ∨ embedRouting s.cat e = expected) :
    applyGroup C expected s g = looped C expected s e g := by
  rw [applyGroup_ready h, looped]
  rcases hr with hr | hr
  · simp [hr, writeOks]
  · rw [if_neg (by simp [hr]), hr]

section Looped

variable (hn : ∀ j ∈ g.nulls, fate j.id = .nulled)
  (he : ∀ x ∈ g.embeds, fate x.1.id = settle C expected.dim (x.1.there e.recursive s.cells) x)

include hn in
omit [DecidableEq N] in
theorem withNulls_leaves :
    Leaves (g.nulls.map NullJob.id) fate s.queue (withNulls s e g).queue ∧
      Buries (g.nulls.map NullJob.id) fate s.queue (withNulls s e g).queue := by
  have hno : ∀ f, f ≠ Fate.nulled → ∀ n ∈ g.nulls.map NullJob.id, fate n ≠ f := by
    intro f hf n hn' hc
    obtain ⟨j, hj, rfl⟩ := mem_map.mp hn'
    exact hf (hc.symm.trans (hn j hj))
  exact ⟨leaves_deleteJobs _ (hno _ (by decide)), buries_none _ rfl (hno _ (by decide))⟩

include hn he in
omit [DecidableEq N] in
theorem looped_leaves (hc : Claims s.queue g.ids) :
    Leaves g.ids fate s.queue (looped C expected s e g).1.queue ∧
      Buries g.ids fate s.queue (looped C expected s e g).1.queue := by
  obtain ⟨hdel, hdelB⟩ := withNulls_leaves (s := s) (e := e) hn
  have hcE : Claims (withNulls s e g).queue (g.embeds.map (·.1.id)) := hc.after hdel
  obtain ⟨hoks, hleave, hbury⟩ := loop_spec (fun j => j.there e.recursive s.cells) g.embeds
    ⟨(withNulls s e g).queue, ⟨0, g.nulls.length, 0, 0⟩, []⟩ he hcE
  rw [nil_append] at hoks
  unfold looped
  generalize g.embeds.foldl (applyOutcome C expected.dim)
    ⟨(withNulls s e g).queue, ⟨0, g.nulls.length, 0, 0⟩, []⟩ = l at hoks hleave hbury ⊢
  -- the jobs whose vectors are written end last, neither released nor dead
  have hok : ∀ f, f ≠ Fate.written → f ≠ .obsolete → ∀ n ∈ l.oks.map (·.1.id), fate n ≠ f := by
    intro f hf₁ hf₂ n hn' hf
    rw [hoks] at hn'
    obtain ⟨y, hy, rfl⟩ := mem_map.mp hn'
    obtain ⟨x, hx, hxy⟩ := mem_filterMap.mp hy
    obtain ⟨h₁, h₂⟩ := settle_of_ok (x.1.there e.recursive s.cells) hxy
    rw [h₁, he x hx, h₂] at hf
    split at hf
    · exact hf₁ hf.symm
    · exact hf₂ hf.symm
  have hperm : (lost C expected.dim g.embeds ++ l.oks.map (·.1.id)).Perm
      (g.embeds.map (·.1.id)) := hoks ▸ lost_perm g.embeds
  have hapart : Apart (lost C expected.dim g.embeds) (l.oks.map (·.1.id)) (withNulls s e g).queue :=
    (hcE.perm hperm).apart
  have hwrite := writeOks_leaves (C := C) (s := withNulls s e g) e.recursive
    expected.vectorColumn l (hok .released (by decide) (by decide))
  have hwriteB : Buries (l.oks.map (·.1.id)) fate l.queue
      (writeOks C (withNulls s e g) e.recursive expected.vectorColumn l).1.queue :=
    buries_none _ (writeOks_dead _ _ _) (hok .dead (by decide) (by decide))
  constructor
  · exact hdel.trans ((hleave.trans hwrite hapart).congr fun n => hperm.mem_iff) hc.apart
  · exact hdelB.trans hdel ((hbury.trans hleave hwriteB hapart).congr fun n => hperm.mem_iff)
      hc.apart

include hn he in
omit [DecidableEq N] in
theorem looped_effect (h : Ready s.cat e) (hc : Claims s.queue g.ids) :
    Effect (emptyColumns s.cat) expected.vectorColumn (nulledPks fate g.items)
      (vectors fate (isRecursive s.cat) g.items) s.cells (looped C expected s e g).1.cells := by
  have hcE : Claims (withNulls s e g).queue (g.embeds.map (·.1.id)) :=
    hc.after (withNulls_leaves (s := s) (e := e) hn).1
  have hoks := (loop_spec (fun j => j.there e.recursive s.cells) g.embeds
    ⟨(withNulls s e g).queue, ⟨0, g.nulls.length, 0, 0⟩, []⟩ he hcE).1
  rw [nil_append] at hoks
  rw [nulledPks_items hn, vectors_items _ _ he, ready_emptyColumns h, ready_recursive h, ← hoks]
  simpa [looped] using (effect_nullRows expected.vectorColumn s.cells).trans
    (writeOks_effect (C := C) (s := withNulls s e g) (nullColumns s.cat e) e.recursive
      expected.vectorColumn _) (.inl rfl)

include hn he in
theorem ends_looped (h : Ready s.cat e) (hc : Claims s.queue g.ids)
    (hr : g.embeds = [] ∨ embedRouting s.cat e = expected) :
    Ends C expected fate g.items s (applyGroup C expected s g).1 := by
  rw [applyGroup_looped h hr]
  have hcat : (looped C expected s e g).1.cat = s.cat := writeOks_cat _ _ _
  have heffect := looped_effect hn he h hc
  have hthere : ∀ j : EmbedJob K, j.there (isRecursive s.cat)
      (looped C expected s e g).1.cells = j.there e.recursive s.cells := by
    intro j
    rw [EmbedJob.there, EmbedJob.there, heffect.isSome, ready_recursive h]
  have hitem := fate_items hn he
  refine ⟨?_, .inl ?_, (looped_leaves hn he hc).1.next, ?_, ?_, ?_, ?_, ?_⟩
  · rw [← Group.ids_eq]
    exact (looped_leaves hn he hc).2
  · rw [← Group.ids_eq]
    exact (looped_leaves hn he hc).1
  · rw [hcat]
    exact heffect
  · intro i hi hf
    rcases hitem i hi with ⟨j, -, hf'⟩ | ⟨x, -, hf'⟩ <;> rw [hf'] at hf
    · cases hf
    · exact absurd hf settle_there.1
  · intro j v hi hf
    rw [hcat, hthere]
    exact settle_there.2.1 ((he _ (embed_of_mem_items hi)).symm.trans hf)
  · intro j v hi hf
    rw [hcat, hthere]
    exact settle_there.2.2 ((he _ (embed_of_mem_items hi)).symm.trans hf)
  · intro i hi
    rcases hitem i hi with ⟨j, rfl, hf⟩ | ⟨x, rfl, hf⟩ <;> rw [hf]
    · exact ⟨j, rfl⟩
    · exact settle_lawful _ _ _

end Looped

/-- **One group**, whatever the catalog: its jobs end as `ending` says. -/
theorem applyGroup_ends (hc : Claims s.queue g.ids)
    (hf : ∀ i ∈ g.items, fate i.id = ending C expected s.cat s.cells i) :
    Ends C expected fate g.items s (applyGroup C expected s g).1 := by
  rcases phase s.cat with hcl | ⟨e, hb⟩ | ⟨e, hg⟩ | ⟨e, hr⟩
  · rw [applyGroup_closed hcl]
    exact ends_closed hcl fun i hi => (hf i hi).trans (ending_closed hcl i)
  · exact ends_broken hb fun i hi => (hf i hi).trans (by
      simp [ending, hb.entry, hb.opened, hb.broken])
  · exact ends_gone hg fun i hi => (hf i hi).trans (by
      simp [ending, hg.entry, hg.opened, hg.intact, hg.gone])
  · have hn : ∀ j ∈ g.nulls, fate j.id = .nulled := fun j hj =>
      (hf _ (mem_items_null hj)).trans (ending_ready hr _)
    have he : ∀ x ∈ g.embeds, fate x.1.id = if embedRouting s.cat e ≠ expected then .released
        else settle C expected.dim (x.1.there e.recursive s.cells) x := fun x hx =>
      (hf _ (mem_items_embed hx)).trans (ending_ready hr _)
    by_cases hroute : embedRouting s.cat e = expected
    · exact ends_looped hn (fun x hx => (he x hx).trans (if_neg (not_not.mpr hroute))) hr hc
        (.inr hroute)
    · by_cases hsome : g.embeds = []
      · exact ends_looped hn (fun x hx => by rw [hsome] at hx; cases hx) hr hc (.inl hsome)
      · exact ends_rerouted hr hc ⟨hsome, hroute⟩ hn fun x hx =>
          (he x hx).trans (if_pos hroute)

end Apply

end Postvec.WriteBack
