import Postvec.Extension.WriteBackGroup

/-!
# The jobs of a group, one by one

The loop of `apply_rows` as a run over the items of the group, each turn (`stepRow`) a group of one
or, where its transaction aborts, a release.

* `Ends.cons`: the account of a first job and the account of the others make one; a quarantine on
  the way empties the queue for good;
* **`runRows_ends`**: whatever aborts, the jobs end as some fates say, and under an entry that is
  closed or ready (`Steady`) a job whose own transaction commits ends as in a group;
* **`same_rows`**: rows, keys and dead jobs are those of the group, where nothing aborts.
-/

namespace Postvec.WriteBack

open List

variable {K V N : Type*}

/-! ## 1. Accounts, one after the other -/

section Accounts

variable {C : Config V} {expected : EmbedRouting N} {fate fate' : Nat → Fate}
  {items : List (Item K V)} {i : Item K V} {s s' s'' : Store K V N}

variable {ids : List Nat} {q q' : Queue K}

theorem Leaves.fate_congr (h : Leaves ids fate q q')
    (he : ∀ n ∈ ids, fate n = fate' n) : Leaves ids fate' q q' where
  left := by
    intro j hj
    refine (h.left j hj).imp_right fun ⟨hc, hn, i, hi, hid, hf, hs⟩ => ?_
    exact ⟨hc, hn, i, hi, hid, he _ hid ▸ hf, hs⟩
  keep := h.keep
  released := fun i hi hid hf => h.released i hi hid ((he _ hid).trans hf)
  next := h.next

theorem Buries.fate_congr (h : Buries ids fate q q')
    (he : ∀ n ∈ ids, (fate n = .dead ↔ fate' n = .dead)) : Buries ids fate' q q' where
  mem := by
    intro d
    rw [h.mem]
    refine or_congr_right (and_congr_right fun _ => and_congr_right fun hid => he _ hid)
  count := by
    intro n
    rw [h.count]
    have : (n ∈ ids ∧ fate n = .dead) ↔ (n ∈ ids ∧ fate' n = .dead) :=
      and_congr_right fun hid => he n hid
    simp only [this]

theorem nulledPks_congr (h : ∀ i ∈ items, fate i.id = fate' i.id) :
    nulledPks fate items = nulledPks fate' items := by
  refine filterMap_congr fun i hi => ?_
  cases i with
  | null j => simp only [Item.nulledPk, show fate j.id = fate' j.id from h _ hi]
  | embed x => rfl

theorem vectors_congr (r : Bool) (h : ∀ i ∈ items, fate i.id = fate' i.id) :
    vectors fate r items = vectors fate' r items := by
  refine filterMap_congr fun i hi => ?_
  cases i with
  | null j => rfl
  | embed x =>
    obtain ⟨j, o⟩ := x
    cases o with
    | ok v => simp only [Item.vector, show fate j.id = fate' j.id from h _ hi]
    | dead | retry => rfl

theorem fate_ids (h : ∀ i ∈ items, fate i.id = fate' i.id) :
    ∀ n ∈ items.map Item.id, fate n = fate' n :=
  forall_mem_map.mpr h

/-- After the queue was emptied nothing more is buried. -/
theorem Buries.purged {ids₁ ids₂ : List Nat} {q'' : Queue K} (h : Buries ids₁ fate q q')
    (hq : q'.jobs = []) (h' : Buries ids₂ fate q' q'') (hno : ∀ n ∈ ids₂, fate n ≠ .dead) :
    Buries (ids₁ ++ ids₂) fate q q'' := by
  have hids : ∀ n, n ∈ ids₁ ++ ids₂ ∧ fate n = .dead ↔ n ∈ ids₁ ∧ fate n = .dead := by
    intro n
    rw [mem_append]
    exact ⟨fun hc => ⟨hc.1.resolve_right fun hn => hno n hn hc.2, hc.2⟩,
      fun hc => ⟨.inl hc.1, hc.2⟩⟩
  refine ⟨fun d => ?_, fun n => ?_⟩
  · rw [h'.mem, h.mem, hq, hids]
    simp
  · rw [h'.count, h.count, hq]
    simp only [hids, map_nil, count_nil, ite_self, Nat.add_zero]

/-- The queue is empty, and stays so. -/
theorem Leaves.empty (h : Leaves ids fate q q') (hq : q.jobs = []) : q'.jobs = [] := by
  refine eq_nil_iff_forall_not_mem.mpr fun j hj => ?_
  rcases h.left j hj with ⟨hj, -⟩ | ⟨-, -, i, hi, -⟩
  · rw [hq] at hj
    cases hj
  · rw [hq] at hi
    cases hi

variable [DecidableEq K]

theorem Effect.cols_congr {cols cols' : List Text} {col : Text} {d : List (Target K × V)}
    {c c' : Target K → Option (Cells V)} (h : Effect cols col [] d c c') :
    Effect cols' col [] d c c' :=
  ⟨h.absent, fun t r ht => by simpa only [emptied_nil] using h.present t r ht⟩

/-- Only the fates of the items matter. -/
theorem Ends.congr (h : Ends C expected fate items s s')
    (he : ∀ i ∈ items, fate i.id = fate' i.id) : Ends C expected fate' items s s' where
  buries := h.buries.fate_congr fun n hn => by rw [fate_ids he n hn]
  leaves := h.leaves.imp_left fun hl => hl.fate_congr (fate_ids he)
  next := h.next
  effect := by
    rw [← nulledPks_congr he, ← vectors_congr _ he]
    exact h.effect
  dropped := fun i hi hf => h.dropped i hi ((he i hi).trans hf)
  written := fun j v hi hf => h.written j v hi ((he _ hi).trans hf)
  obsolete := fun j v hi hf => h.obsolete j v hi ((he _ hi).trans hf)
  lawful := fun i hi => he i hi ▸ h.lawful i hi

/-- What the rest of a run leaves of the catalog: a closed entry stays closed, a ready one is not
touched, and the mode of an entry never changes. -/
structure Later (c c' : Catalog N) : Prop where
  closed : Closed c → Closed c'
  ready : ∀ e, Ready c e → c' = c
  mode : isRecursive c' = isRecursive c

theorem Later.refl (c : Catalog N) : Later c c := ⟨id, fun _ _ => rfl, rfl⟩

/-- A vector is written after no row is emptied any more. -/
def NullsFirst (i : Item K V) (items : List (Item K V)) : Prop :=
  (∃ j, i = .null j) ∨ ∀ i' ∈ items, ∃ x, i' = .embed x

/-- The rows of a first job and of the others. -/
theorem Ends.effect_cons (h : Ends C expected fate [i] s s')
    (h' : Ends C expected fate items s' s'') (hn : NullsFirst i items) (hl : Later s'.cat s''.cat)
    (hr : ∀ j, i = .null j → fate j.id = .nulled → ∃ e, Ready s'.cat e) :
    Effect (emptyColumns s''.cat) expected.vectorColumn (nulledPks fate (i :: items))
      (vectors fate (isRecursive s''.cat) (i :: items)) s.cells s''.cells := by
  have hfirst : Effect (emptyColumns s''.cat) expected.vectorColumn (nulledPks fate [i])
      (vectors fate (isRecursive s''.cat) [i]) s.cells s'.cells := by
    have := h.effect
    rw [← hl.mode] at this
    by_cases hnp : nulledPks fate [i] = []
    · rw [hnp] at this ⊢
      exact this.cols_congr
    · cases i with
      | embed x => exact absurd rfl hnp
      | null j =>
        have hf : fate j.id = .nulled := by
          by_contra hf
          exact hnp (by simp [nulledPks, Item.nulledPk, hf])
        obtain ⟨e, he⟩ := hr j rfl hf
        rw [hl.ready e he]
        exact this
  have happ : i :: items = [i] ++ items := rfl
  rw [happ, nulledPks, vectors, filterMap_append, filterMap_append]
  refine hfirst.trans h'.effect ?_
  rcases hn with ⟨j, rfl⟩ | hall
  · exact .inl rfl
  · refine .inr (filterMap_eq_nil_iff.mpr fun i' hi' => ?_)
    obtain ⟨x, rfl⟩ := hall i' hi'
    rfl

/-- A job that goes on in the queue, or to `jobs_dead`, was in the queue. -/
def Grounded (fate : Nat → Fate) (q : Queue K) (items : List (Item K V)) : Prop :=
  ∀ i ∈ items, fate i.id = .released ∨ fate i.id = .dead → ∃ j ∈ q.jobs, j.id = i.id

/-- A first job, and then the others. -/
theorem Ends.cons (h : Ends C expected fate [i] s s') (h' : Ends C expected fate items s' s'')
    (hn : NullsFirst i items) (hl : Later s'.cat s''.cat)
    (hr : ∀ j, i = .null j → fate j.id = .nulled → ∃ e, Ready s'.cat e)
    (hc : Claims s.queue (i.id :: items.map Item.id)) (hg : Grounded fate s'.queue items) :
    Ends C expected fate (i :: items) s s'' := by
  have happ : (i :: items).map Item.id = [i].map Item.id ++ items.map Item.id := rfl
  have ha : Apart ([i].map Item.id) (items.map Item.id) s.queue := hc.apart
  have hthere : ∀ j : EmbedJob K, j.there (isRecursive s''.cat) s''.cells =
      j.there (isRecursive s'.cat) s'.cells := by
    intro j
    rw [EmbedJob.there, EmbedJob.there, hl.mode, h'.effect.isSome]
  refine ⟨?_, ?_, Nat.le_trans h.next h'.next, h.effect_cons h' hn hl hr, ?_, ?_, ?_, ?_⟩
  · rcases h.leaves with hlv | ⟨hq, -⟩
    · exact h.buries.trans hlv h'.buries ha
    · -- the entry was quarantined: no later job is dead
      refine h.buries.purged hq h'.buries fun n hn' hf => ?_
      obtain ⟨i', hi', rfl⟩ := mem_map.mp hn'
      obtain ⟨j, hj, -⟩ := hg i' hi' (.inr hf)
      rw [hq] at hj
      cases hj
  · rcases h.leaves with hlv | ⟨hq, hcl⟩
    · rcases h'.leaves with hlv' | hp
      · exact .inl (hlv.trans hlv' ha)
      · exact .inr hp
    · rcases h'.leaves with hlv' | hp
      · exact .inr ⟨hlv'.empty hq, hl.closed hcl⟩
      · exact .inr hp
  · intro i' hi' hf
    rcases mem_cons.mp hi' with rfl | hi'
    · exact hl.closed (h.dropped _ (mem_singleton_self _) hf)
    · exact h'.dropped i' hi' hf
  · intro j v hi' hf
    rcases mem_cons.mp hi' with rfl | hi'
    · rw [hthere]
      exact h.written j v (mem_singleton_self _) hf
    · exact h'.written j v hi' hf
  · intro j v hi' hf
    rcases mem_cons.mp hi' with rfl | hi'
    · rw [hthere]
      exact h.obsolete j v (mem_singleton_self _) hf
    · exact h'.obsolete j v hi' hf
  · intro i' hi'
    rcases mem_cons.mp hi' with rfl | hi'
    · exact h.lawful _ (mem_singleton_self _)
    · exact h'.lawful i' hi'

end Accounts

/-! ## 2. One job on its own -/

section Single

variable {C : Config V} {expected : EmbedRouting N} {fate : Nat → Fate}
  {i : Item K V} {s : Store K V N} {q : Queue K} {j : Job K} {n : Nat}

/-- The job as a group of one. -/
def Item.single : Item K V → Group K V
  | .null j => ⟨[j], []⟩
  | .embed x => ⟨[], [x]⟩

theorem Group.singles_eq (g : Group K V) :
    g.singles = g.items.map fun i => (i.id, i.single) := by
  rw [Group.singles, Group.items, map_append, map_map, map_map]
  rfl

theorem single_items (i : Item K V) : i.single.items = [i] := by
  cases i <;> rfl

theorem single_ids (i : Item K V) : i.single.ids = [i.id] := by
  cases i <;> rfl

/-- What the queue knows of an item: its job, if it is there, has its key and its attempts; and it
is there unless the entry is closed. -/
structure Known (s : Store K V N) (i : Item K V) : Prop where
  slot : ∀ j ∈ s.queue.jobs, j.id = i.id → j.slot = i.slot
  attempts : ∀ j ∈ s.queue.jobs, ∀ x, i = .embed x → j.id = i.id → j.attempts = x.1.attempts
  present : (∃ j ∈ s.queue.jobs, j.id = i.id) ∨ Closed s.cat

theorem mine_nil (h : ¬ ∃ j ∈ q.jobs, j.id = n) :
    (q.jobs.filter fun j' => [n].contains j'.id) = [] := by
  refine filter_eq_nil_iff.mpr fun j hj hc => h ⟨j, hj, ?_⟩
  simpa using hc

/-- No job of the id is there: nothing has to leave. -/
theorem Leaves.of_absent {q' : Queue K} (h : Leaves [] fate q q')
    (hn : ¬ ∃ j ∈ q.jobs, j.id = n) : Leaves [n] fate q q' where
  left := by
    intro j hj
    refine (h.left j hj).imp (fun ⟨hj, _⟩ => ⟨hj, fun hc => hn ⟨j, hj, by simpa using hc⟩⟩) ?_
    rintro ⟨-, -, i, -, hid, -⟩
    cases hid
  keep := fun j hj _ => h.keep j hj (by simp)
  released := fun i hi hid => absurd ⟨i, hi, by simpa using hid⟩ hn
  next := h.next

variable [DecidableEq K]

/-- The job of an id. -/
theorem mine_eq (hj : j ∈ q.jobs) :
    (q.jobs.filter fun j' => [j.id].contains j'.id) = [j] := by
  have hp : ∀ j' ∈ q.jobs, [j.id].contains j'.id = decide (j' = j) := by
    intro j' hj'
    by_cases he : j' = j
    · simp [he]
    · have hid : j'.id ≠ j.id := fun hc => he (q.eq_of_id hj' hj hc)
      simp [he, hid]
  rw [filter_congr hp, filter_eq, (List.Nodup.of_map _ q.ids_nodup).count, if_pos hj]
  rfl

/-- The queue of a released job, by its attempts. -/
theorem releaseFailedGroup_queue (hj : j ∈ s.queue.jobs) :
    (releaseFailedGroup C s [j.id]).1.queue =
      if j.attempts > C.maxRetries then (deadIds s.queue [j.id]).unclaimJobs [] false
      else (deadIds s.queue []).unclaimJobs [j.id] false := by
  simp only [releaseFailedGroup, mine_eq hj]
  split
  · rename_i ha
    simp [ha]
  · rename_i ha
    simp [ha]

theorem leaves_release (hj : j ∈ s.queue.jobs) (hc : Claims s.queue [j.id])
    (hf : fate j.id = if j.attempts > C.maxRetries then .dead else .released) :
    Leaves [j.id] fate s.queue (releaseFailedGroup C s [j.id]).1.queue ∧
      Buries [j.id] fate s.queue (releaseFailedGroup C s [j.id]).1.queue := by
  rw [releaseFailedGroup_queue hj]
  split at hf
  · rename_i ha
    have hall : ∀ n ∈ [j.id], fate n = .dead := by simpa using hf
    have hl := leaves_moveToDead s.queue hall
    have ha' : Apart [j.id] [] s.queue := ⟨by simp, by simp, by simp⟩
    have hl₀ : Leaves [] fate (deadIds s.queue [j.id])
        ((deadIds s.queue [j.id]).unclaimJobs [] false) := leaves_unclaimJobs _ _ (by simp)
    have hb₀ : Buries [] fate (deadIds s.queue [j.id])
        ((deadIds s.queue [j.id]).unclaimJobs [] false) := buries_none _ (by simp) (by simp)
    rw [if_pos ha]
    exact ⟨hl.trans hl₀ ha', (buries_moveToDead _ hall).trans hl hb₀ ha'⟩
  · rename_i ha
    have hall : ∀ n ∈ [j.id], fate n = .released := by simpa using hf
    have hl : Leaves [] fate s.queue (deadIds s.queue []) := leaves_moveToDead _ (by simp)
    have hb : Buries [] fate s.queue (deadIds s.queue []) := buries_moveToDead _ (by simp)
    have ha' : Apart [] [j.id] s.queue := ⟨by simp, hc.old, hc.claimed⟩
    rw [if_neg ha]
    exact ⟨hl.trans (leaves_unclaimJobs _ _ hall) ha',
      hb.trans hl (buries_none _ (by simp) fun n hn hd => by rw [hall n hn] at hd; cases hd) ha'⟩

/-- A job released on its own: by its attempts it is dead or released; without its job nothing
happens, and the entry is closed. -/
theorem releaseFailedGroup_ends (C : Config V) (expected : EmbedRouting N) (hk : Known s i)
    (hc : Claims s.queue [i.id]) :
    ∃ f : Fate, (f = .released ∨ f = .dead → ∃ j ∈ s.queue.jobs, j.id = i.id) ∧ f.still = true ∧
      ∀ fate : Nat → Fate, fate i.id = f →
        Ends C expected fate [i] s (releaseFailedGroup C s [i.id]).1 ∧
        Leaves [i.id] fate s.queue (releaseFailedGroup C s [i.id]).1.queue := by
  by_cases hp : ∃ j ∈ s.queue.jobs, j.id = i.id
  · obtain ⟨j, hj, hid⟩ := hp
    refine ⟨if j.attempts > C.maxRetries then .dead else .released, fun _ => ⟨j, hj, hid⟩, ?_, ?_⟩
    · split <;> rfl
    · intro fate hf
      rw [← hid] at hf hc ⊢
      obtain ⟨hl, hb⟩ := leaves_release hj hc hf
      rw [hid] at hf hl hb ⊢
      refine ⟨.of_still ?_ rfl hb (.inl hl) hl.next ?_ ?_, hl⟩ <;> simp only [mem_singleton] <;>
        rintro _ rfl
      · rw [hf]
        split <;> rfl
      · intro hd
        rw [hf] at hd
        split at hd <;> cases hd
      · intro hd x hx
        rw [hf] at hd
        split at hd
        · rename_i ha
          rw [← hk.attempts j hj _ hx hid]
          exact ha
        · cases hd
  · have hcl : Closed s.cat := hk.present.resolve_left hp
    have hq : (releaseFailedGroup C s [i.id]).1.queue =
        (deadIds s.queue []).unclaimJobs [] false := by
      simp only [releaseFailedGroup, mine_nil hp]
      rfl
    refine ⟨.dropped, by simp, rfl, fun fate hf => ?_⟩
    have hl : Leaves [i.id] fate s.queue (releaseFailedGroup C s [i.id]).1.queue := by
      rw [hq]
      have hl₀ : Leaves [] fate s.queue (deadIds s.queue []) := leaves_moveToDead _ (by simp)
      exact Leaves.of_absent (hl₀.trans (leaves_unclaimJobs _ _ (by simp))
        ⟨by simp, by simp, by simp⟩) hp
    have hdead : (releaseFailedGroup C s [i.id]).1.queue.dead = s.queue.dead := by
      rw [hq, Queue.dead_unclaimJobs]
      simp [deadIds, Queue.moveToDead]
    refine ⟨.of_still ?_ rfl (buries_none _ hdead ?_) (.inl hl) hl.next (fun _ _ _ => hcl) ?_, hl⟩
      <;>
      simp [hf, Fate.still]

theorem Later.trans {c c' c'' : Catalog N} (h : Later c c') (h' : Later c' c'') : Later c c'' where
  closed := fun hc => h'.closed (h.closed hc)
  ready := by
    intro e he
    have hcc := h.ready e he
    subst hcc
    exact h'.ready e he
  mode := h'.mode.trans h.mode

theorem Ready.not_closed {c : Catalog N} {e : RoutedEntry N} (h : Ready c e) : ¬ Closed c :=
  fun hc => h.opened (hc e h.entry)

variable [DecidableEq N]

/-- One turn of `apply_rows`. -/
def stepRow (C : Config V) (expected : EmbedRouting N) (fails : Nat → Bool) (s : Store K V N)
    (i : Item K V) : Store K V N × Applied :=
  if fails i.id then releaseFailedGroup C s [i.id] else applyGroup C expected s i.single

/-- What a group does to the catalog. -/
theorem applyGroup_later (C : Config V) (expected : EmbedRouting N) (s : Store K V N)
    (g : Group K V) :
    Later s.cat (applyGroup C expected s g).1.cat := by
  rcases phase s.cat with hcl | ⟨e, hb⟩ | ⟨e, hg⟩ | ⟨e, hr⟩
  · rw [applyGroup_closed hcl]
    exact .refl _
  · rw [applyGroup_broken hb]
    refine ⟨fun _ => closed_quarantine _, fun e' hr => ?_, ?_⟩
    · have he : e' = e := Option.some.inj (hr.entry.symm.trans hb.entry)
      rw [he] at hr
      exact absurd (hr.intact.symm.trans hb.broken) (by decide)
    · simp [isRecursive, Catalog.quarantine, hb.entry]
  · rw [applyGroup_gone hg]
    have hentry : (failRouted s.cat e).entry = s.cat.entry := by
      unfold failRouted
      split <;> rfl
    refine ⟨fun hc e' he' => hc e' (hentry ▸ he'), fun e' hr => ?_, ?_⟩
    · have he : e' = e := Option.some.inj (hr.entry.symm.trans hg.entry)
      rw [he] at hr
      exact absurd (hr.column.symm.trans hg.gone) (by decide)
    · show (failRouted s.cat e).entry.any _ = _
      rw [hentry]
      rfl
  · have hcat : (applyGroup C expected s g).1.cat = s.cat := by
      rw [applyGroup_ready hr]
      split
      · rfl
      · exact writeOks_cat _ _ _
    rw [hcat]
    exact .refl _

theorem stepRow_later (C : Config V) (expected : EmbedRouting N) (fails : Nat → Bool)
    (s : Store K V N) (i : Item K V) :
    Later s.cat (stepRow C expected fails s i).1.cat := by
  unfold stepRow
  split
  · exact .refl _
  · exact applyGroup_later C expected s _

/-- The entry is closed or ready: nothing of the catalog changes. -/
def Steady (c : Catalog N) : Prop := Closed c ∨ ∃ e, Ready c e

/-- A steady entry is not quarantined. -/
theorem applyGroup_leaves {g : Group K V} (hst : Steady s.cat)
    (hf : ∀ i ∈ g.items, fate i.id = ending C expected s.cat s.cells i)
    (h : Ends C expected fate g.items s (applyGroup C expected s g).1) :
    Leaves (g.items.map Item.id) fate s.queue (applyGroup C expected s g).1.queue := by
  rcases hst with hcl | ⟨e, hr⟩
  · rw [applyGroup_closed hcl, Group.ids_eq]
    refine leaves_deleteJobs _ fun n hn hc => ?_
    obtain ⟨i, hi, rfl⟩ := mem_map.mp hn
    rw [hf i hi, ending_closed hcl] at hc
    cases hc
  · rcases h.leaves with hl | ⟨-, hcl⟩
    · exact hl
    · rw [(applyGroup_later C expected s g).ready e hr] at hcl
      exact absurd hcl hr.not_closed

omit [DecidableEq K] in
/-- A job is nulled under a ready entry only. -/
theorem ready_of_nulled (h : ending C expected s.cat s.cells i = .nulled) : ∃ e, Ready s.cat e := by
  rcases phase s.cat with hcl | ⟨e, hb⟩ | ⟨e, hg⟩ | hr
  · rw [ending_closed hcl] at h
    cases h
  · simp [ending, hb.entry, hb.opened, hb.broken] at h
  · simp [ending, hg.entry, hg.opened, hg.intact, hg.gone] at h
  · exact hr

/-- **One turn**: the job ends, and where its transaction does not abort it ends as `ending`
says. -/
theorem stepRow_ends (C : Config V) (expected : EmbedRouting N) (fails : Nat → Bool)
    (hk : Known s i) (hc : Claims s.queue [i.id]) :
    ∃ f : Fate, (f = .released ∨ f = .dead → ∃ j ∈ s.queue.jobs, j.id = i.id) ∧
      (fails i.id = false → f = ending C expected s.cat s.cells i) ∧
      (f = .nulled → ∃ e, Ready (stepRow C expected fails s i).1.cat e) ∧
      ∀ fate : Nat → Fate, fate i.id = f →
        Ends C expected fate [i] s (stepRow C expected fails s i).1 ∧
        (Steady s.cat → Leaves [i.id] fate s.queue (stepRow C expected fails s i).1.queue) := by
  unfold stepRow
  cases hfail : fails i.id with
  | true =>
    obtain ⟨f, hg, hstill, hends⟩ := releaseFailedGroup_ends C expected hk hc
    refine ⟨f, hg, by simp, ?_, fun fate hf => ⟨(hends fate hf).1, fun _ => (hends fate hf).2⟩⟩
    rintro rfl
    cases hstill
  | false =>
    refine ⟨ending C expected s.cat s.cells i, ?_, fun _ => rfl, ?_, fun fate hf => ?_⟩
    · intro h
      rcases hk.present with hp | hcl
      · exact hp
      · rw [ending_closed hcl] at h
        simp at h
    · intro h
      obtain ⟨e, hr⟩ := ready_of_nulled h
      refine ⟨e, ?_⟩
      show Ready (applyGroup C expected s i.single).1.cat e
      rw [(applyGroup_later C expected s i.single).ready e hr]
      exact hr
    · have hf' : ∀ i' ∈ i.single.items, fate i'.id = ending C expected s.cat s.cells i' := by
        rw [single_items]
        simpa using hf
      have hends := applyGroup_ends (single_ids i ▸ hc) hf'
      have hleaves := fun hst => applyGroup_leaves hst hf' hends
      rw [single_items] at hends hleaves
      exact ⟨hends, hleaves⟩

end Single

/-! ## 3. The rows, one by one -/

section Rows

variable {C : Config V} {expected : EmbedRouting N} {fate : Nat → Fate}
  {i : Item K V} {items : List (Item K V)} {s s' : Store K V N}

/-- The NULL jobs come first. -/
def Ordered (items : List (Item K V)) : Prop :=
  items.Pairwise fun a b => (∃ j, a = .null j) ∨ ∃ x, b = .embed x

theorem ordered_items (g : Group K V) : Ordered g.items := by
  refine pairwise_append.mpr ⟨?_, ?_, ?_⟩
  · refine pairwise_map.mpr (pairwise_of_forall fun j _ => .inl ⟨j, rfl⟩)
  · refine pairwise_map.mpr (pairwise_of_forall fun _ x => .inr ⟨x, rfl⟩)
  · intro a ha b _
    obtain ⟨j, -, rfl⟩ := mem_map.mp ha
    exact .inl ⟨j, rfl⟩

theorem Ordered.nullsFirst (h : Ordered (i :: items)) : NullsFirst i items := by
  by_cases hi : ∃ j, i = .null j
  · exact .inl hi
  · exact .inr fun i' hi' => ((pairwise_cons.mp h).1 i' hi').resolve_left hi

variable [DecidableEq K]

/-- What the queue knows of the other jobs, after one was applied. -/
theorem Ends.known (h : Ends C expected fate [i] s s') (hl : Later s.cat s'.cat)
    (hc : Claims s.queue (i.id :: items.map Item.id)) {i' : Item K V} (hi' : i' ∈ items)
    (hk : Known s i') : Known s' i' := by
  have hid : i'.id ∈ items.map Item.id := mem_map_of_mem hi'
  have ha : Apart ([i].map Item.id) (items.map Item.id) s.queue := hc.apart
  rcases h.leaves with hlv | ⟨hq, hcl⟩
  · refine ⟨fun j hj he => ?_, fun j hj x hx he => ?_, ?_⟩
    · exact hk.slot j ((hlv.mem_later ha (he ▸ hid)).mp hj) he
    · exact hk.attempts j ((hlv.mem_later ha (he ▸ hid)).mp hj) x hx he
    · refine hk.present.imp (fun ⟨j, hj, he⟩ => ?_) hl.closed
      exact ⟨j, (hlv.mem_later ha (he ▸ hid)).mpr hj, he⟩
  · exact ⟨by simp [hq], by simp [hq], .inr hcl⟩

/-- The other jobs are still claimed. -/
theorem Ends.claims (h : Ends C expected fate [i] s s')
    (hc : Claims s.queue (i.id :: items.map Item.id)) : Claims s'.queue (items.map Item.id) := by
  rcases h.leaves with hlv | ⟨hq, -⟩
  · exact hc.after hlv
  · exact ⟨(nodup_cons.mp hc.nodup).2,
      fun n hn => Nat.lt_of_lt_of_le (hc.old n (mem_cons_of_mem _ hn)) h.next, by simp [hq]⟩

theorem Ends.grounded (h : Ends C expected fate [i] s s')
    (hc : Claims s.queue (i.id :: items.map Item.id)) (hg : Grounded fate s'.queue items) :
    Grounded fate s.queue items := by
  have ha : Apart ([i].map Item.id) (items.map Item.id) s.queue := hc.apart
  intro i' hi' hf
  obtain ⟨j, hj, he⟩ := hg i' hi' hf
  rcases h.leaves with hlv | ⟨hq, -⟩
  · exact ⟨j, (hlv.mem_later ha (he ▸ mem_map_of_mem hi')).mp hj, he⟩
  · rw [hq] at hj
    cases hj

variable [DecidableEq N]

/-- The jobs applied one by one, as the worker does. -/
def runRows (C : Config V) (expected : EmbedRouting N) (fails : Nat → Bool) (s : Store K V N)
    (total : Applied) (items : List (Item K V)) : Store K V N × Applied :=
  applyRows
    (fun s one => if one.ids.any fails then none else some (applyGroup C expected s one))
    (fun s id => releaseFailedGroup C s [id]) s total (items.map fun i => (i.id, i.single))

theorem runRows_cons (fails : Nat → Bool) (s : Store K V N) (total : Applied) (i : Item K V)
    (items : List (Item K V)) :
    runRows C expected fails s total (i :: items) =
      runRows C expected fails (stepRow C expected fails s i).1
        (total.add (stepRow C expected fails s i).2) items := by
  have hstep : (if i.single.ids.any fails then none else some
    (applyGroup C expected s i.single)).getD
      (releaseFailedGroup C s [i.id]) = stepRow C expected fails s i := by
    rw [single_ids, stepRow]
    cases h : fails i.id <;> simp [h]
  rw [runRows, map_cons, applyRows, hstep]
  rfl

omit [DecidableEq K] in
theorem ending_cells {c : Catalog N} {cells cells' : Target K → Option (Cells V)}
    (h : ∀ t, (cells' t).isSome = (cells t).isSome) (i : Item K V) :
    ending C expected c cells' i = ending C expected c cells i := by
  unfold ending EmbedJob.there
  simp only [h]

/-- **The jobs one by one**: they end as some fates say. Where the entry is steady they leave the
queue one by one, and a job whose transaction does not abort ends as `ending` says. -/
theorem runRows_ends (C : Config V) (expected : EmbedRouting N) (fails : Nat → Bool) :
    ∀ (items : List (Item K V)) (s : Store K V N) (total : Applied),
      Claims s.queue (items.map Item.id) → (∀ i ∈ items, Known s i) → Ordered items →
      ∃ fate : Nat → Fate,
        Ends C expected fate items s (runRows C expected fails s total items).1 ∧
        Grounded fate s.queue items ∧
        Later s.cat (runRows C expected fails s total items).1.cat ∧
        (Steady s.cat →
          Leaves (items.map Item.id) fate s.queue
            (runRows C expected fails s total items).1.queue ∧
          ∀ i ∈ items, fails i.id = false → fate i.id = ending C expected s.cat s.cells i)
  | [], s, total, _, _, _ => by
    refine ⟨fun _ => .dropped, ?_, by simp [Grounded], .refl _, fun _ => ⟨leaves_refl _, by simp⟩⟩
    exact .of_still (by simp) rfl (buries_refl _) (.inl (leaves_refl _)) (Nat.le_refl _)
      (by simp) (by simp)
  | i :: items, s, total, hc, hk, ho => by
    rw [runRows_cons]
    obtain ⟨f, hfg, hfe, hfn, hstep⟩ := stepRow_ends C expected fails
      (hk i mem_cons_self) (hc.sublist (by simp))
    have hlater := stepRow_later C expected fails s i
    generalize stepRow C expected fails s i = r at hfn hstep hlater ⊢
    have hends₀ := (hstep (fun _ => f) rfl).1
    obtain ⟨fate, hends, hgr, hlat, hsteady⟩ := runRows_ends C expected fails items r.1
      (total.add r.2) (hends₀.claims hc)
      (fun i' hi' => hends₀.known hlater hc hi' (hk i' (.tail _ hi')))
      (pairwise_cons.mp ho).2
    -- the fate of the first job, next to those of the others
    have hne : ∀ i' ∈ items, i'.id ≠ i.id := by
      intro i' hi' he
      exact (nodup_cons.mp hc.nodup).1 (he ▸ mem_map_of_mem hi')
    let fate' : Nat → Fate := fun n => if n = i.id then f else fate n
    have hfirst : fate' i.id = f := if_pos rfl
    have hrest : ∀ i' ∈ items, fate i'.id = fate' i'.id := fun i' hi' => (if_neg (hne i' hi')).symm
    have hends' := hends.congr hrest
    obtain ⟨hendsᵢ, hleaveᵢ⟩ := hstep fate' hfirst
    have hgr' : Grounded fate' r.1.queue items := fun i' hi' hf => hgr i' hi' (hrest i' hi' ▸ hf)
    refine ⟨fate', hendsᵢ.cons hends' ho.nullsFirst hlat ?_ hc hgr', ?_, hlater.trans hlat, ?_⟩
    · rintro j rfl hf
      exact hfn (hfirst.symm.trans hf)
    · intro i' hi' hf
      rcases mem_cons.mp hi' with rfl | hi'
      · exact hfg (hfirst ▸ hf)
      · exact hendsᵢ.grounded hc hgr' i' hi' hf
    · intro hst
      have hst' : Steady r.1.cat := hst.imp hlater.closed fun ⟨e, he⟩ =>
        ⟨e, by rw [hlater.ready e he]; exact he⟩
      obtain ⟨hleave, hfates⟩ := hsteady hst'
      refine ⟨(hleaveᵢ hst).trans (hleave.fate_congr (fate_ids hrest)) hc.apart, ?_⟩
      intro i' hi' hok
      rcases mem_cons.mp hi' with rfl | hi'
      · exact hfirst.trans (hfe hok)
      · rw [← hrest i' hi', hfates i' hi' hok, ending_cells hendsᵢ.effect.isSome]
        rcases hst with hcl | ⟨e, he⟩
        · rw [ending_closed hcl, ending_closed (hlater.closed hcl)]
        · rw [hlater.ready e he]

end Rows

/-! ## 4. Counting -/

section Counting

variable {C : Config V} {expected : EmbedRouting N} {e : RoutedEntry N}
  {s : Store K V N}

/-- The entry is live, nothing it needs is gone, and its vectors are in the source table. -/
structure LiveColumn (c : Catalog N) (e : RoutedEntry N) : Prop where
  entry : c.entry = some e
  opened : e.state ≠ .disabled
  intact : intact c e = true
  column : e.recursive = false

theorem LiveColumn.phase {c : Catalog N} (h : LiveColumn c e) : Gone c e ∨ Ready c e := by
  cases hg : columnGone c e with
  | true => exact .inl ⟨h.entry, h.opened, h.intact, hg⟩
  | false => exact .inr ⟨h.entry, h.opened, h.intact, hg⟩

variable [DecidableEq K]

theorem releaseFailedGroup_total {j : Job K} (hj : j ∈ s.queue.jobs) :
    (releaseFailedGroup C s [j.id]).2.total = 1 := by
  simp only [releaseFailedGroup, mine_eq hj, Applied.total]
  by_cases ha : j.attempts > C.maxRetries
  · simp [ha]
  · simp [ha]

variable [DecidableEq N]

theorem applyGroup_total (h : LiveColumn s.cat e) (g : Group K V) :
    (applyGroup C expected s g).2.total = g.ids.length := by
  have hids : g.ids.length = g.nulls.length + g.embeds.length := by simp [Group.ids]
  rcases h.phase with hg | hr
  · rw [applyGroup_gone hg]
    simp [Applied.total]
  · rw [applyGroup_ready hr, h.column, hids]
    split
    · simp [Applied.add, Applied.total]
    · rw [writeOks_total, loop_total]
      simp [Applied.total]

theorem applyGroup_live (h : LiveColumn s.cat e) (g : Group K V) :
    LiveColumn (applyGroup C expected s g).1.cat e := by
  rcases h.phase with hg | hr
  · rw [applyGroup_gone hg]
    show LiveColumn (failRouted s.cat e) e
    unfold failRouted
    split
    · exact ⟨h.entry, h.opened, h.intact, h.column⟩
    · exact h
  · rw [(applyGroup_later C expected s g).ready e hr]
    exact h

/-- Every job of a live column is counted once. -/
theorem runRows_total (fails : Nat → Bool) : ∀ (items : List (Item K V)) (s : Store K V N)
    (total : Applied), LiveColumn s.cat e → Claims s.queue (items.map Item.id) →
      (∀ i ∈ items, Known s i) →
      (runRows C expected fails s total items).2.total = total.total + items.length
  | [], _, _, _, _, _ => rfl
  | i :: items, s, total, hlive, hc, hk => by
    have hcl : ¬ Closed s.cat := fun hcl => hlive.opened (hcl e hlive.entry)
    have hstep : (stepRow C expected fails s i).2.total = 1 := by
      unfold stepRow
      split
      · obtain ⟨j, hj, hid⟩ := (hk i mem_cons_self).present.resolve_right hcl
        rw [← hid]
        exact releaseFailedGroup_total hj
      · rw [applyGroup_total hlive, single_ids]
        rfl
    have hlive' : LiveColumn (stepRow C expected fails s i).1.cat e := by
      unfold stepRow
      split
      · exact hlive
      · exact applyGroup_live hlive _
    obtain ⟨f, -, -, -, hends⟩ := stepRow_ends C expected fails (hk i mem_cons_self)
      (hc.sublist (by simp))
    have hends₀ := (hends (fun _ => f) rfl).1
    have hlater := stepRow_later C expected fails s i
    rw [runRows_cons, runRows_total fails items _ _ hlive' (hends₀.claims hc)
      fun i' hi' => hends₀.known hlater hc hi' (hk i' (.tail _ hi'))]
    have hadd : ∀ a b : Applied, (a.add b).total = a.total + b.total := by
      intro a b
      simp only [Applied.add, Applied.total]
      omega
    rw [hadd, hstep, length_cons]
    omega

end Counting

/-! ## 5. Both ways, the same -/

section Same

variable {C : Config V} {expected : EmbedRouting N} {fate : Nat → Fate}
  {s s' s'' : Store K V N} {items : List (Item K V)} {g : Group K V}

/-- The same rows, the same keys in the queue, the same dead jobs. -/
structure Same (s s' : Store K V N) : Prop where
  cells : s.cells = s'.cells
  keys : ∀ slot, s.queue.Pending slot ↔ s'.queue.Pending slot
  dead : ∀ d, d ∈ s.queue.dead ↔ d ∈ s'.queue.dead

/-- The keys that are pending after some jobs left. -/
theorem Leaves.pending_iff {ids : List Nat} {q q' : Queue K} (h : Leaves ids fate q q')
    (slot : Slot K) : q'.Pending slot ↔
      (∃ j ∈ q.jobs, j.id ∉ ids ∧ j.claimed = false ∧ j.slot = slot) ∨
      ∃ i ∈ q.jobs, i.id ∈ ids ∧ fate i.id = .released ∧ i.slot = slot := by
  constructor
  · rintro ⟨j, hj, hc, hs⟩
    rcases h.left j hj with ⟨hj, hid⟩ | ⟨-, -, i, hi, hid, hf, he⟩
    · exact .inl ⟨j, hj, hid, hc, hs⟩
    · exact .inr ⟨i, hi, hid, hf, he.trans hs⟩
  · rintro (⟨j, hj, hid, hc, hs⟩ | ⟨i, hi, hid, hf, hs⟩)
    · exact ⟨j, h.keep j hj hid, hc, hs⟩
    · exact hs ▸ h.released i hi hid hf

/-- The vectors for one row are the same. -/
def OneVector (g : Group K V) (recursive : Bool) : Prop :=
  ∀ j v j' v', (j, ItemOutcome.ok v) ∈ g.embeds → (j', ItemOutcome.ok v') ∈ g.embeds →
    j.target recursive = j'.target recursive → v = v'

theorem mem_vectors {r : Bool} {t : Target K} {v : V} (h : (t, v) ∈ vectors fate r items) :
    ∃ j, Item.embed (j, .ok v) ∈ items ∧ (fate j.id = .written ∨ fate j.id = .obsolete) ∧
      j.target r = t := by
  obtain ⟨i, hi, hv⟩ := mem_filterMap.mp h
  cases i with
  | null j => cases hv
  | embed x =>
    obtain ⟨j, o⟩ := x
    cases o with
    | ok v' =>
      simp only [Item.vector] at hv
      split at hv
      · rename_i hf
        cases hv
        exact ⟨j, hi, hf, rfl⟩
      · cases hv
    | dead | retry => cases hv

theorem OneVector.agreed {r : Bool} (h : OneVector g r) : Agreed (vectors fate r g.items) := by
  intro t v v' hv hv'
  obtain ⟨j, hj, -, ht⟩ := mem_vectors hv
  obtain ⟨j', hj', -, ht'⟩ := mem_vectors hv'
  exact h j v j' v' (embed_of_mem_items hj) (embed_of_mem_items hj') (ht.trans ht'.symm)

variable [DecidableEq K]

/-- Two accounts with the same fates. -/
theorem Ends.same (h : Ends C expected fate items s s') (h' : Ends C expected fate items s s'')
    (hl : Leaves (items.map Item.id) fate s.queue s'.queue)
    (hl' : Leaves (items.map Item.id) fate s.queue s''.queue) (hcells : s'.cells = s''.cells) :
    Same s' s'' where
  cells := hcells
  keys := fun slot => (hl.pending_iff slot).trans (hl'.pending_iff slot).symm
  dead := fun d => (h.buries.mem d).trans (h'.buries.mem d).symm

/-- Where every job is dropped, the rows and the dead jobs are as they were. -/
theorem Ends.all_dropped (h : Ends C expected fate items s s')
    (hf : ∀ i ∈ items, fate i.id = .dropped) :
    s'.cells = s.cells ∧ ∀ d, d ∈ s'.queue.dead ↔ d ∈ s.queue.dead := by
  have hstill : ∀ i ∈ items, (fate i.id).still = true := fun i hi => by rw [hf i hi]; rfl
  have heff := h.effect
  rw [nulledPks_still hstill, vectors_still hstill] at heff
  refine ⟨heff.unique (effect_refl _ _ _) (by simp [Agreed]), fun d => ?_⟩
  rw [h.buries.mem]
  refine or_iff_left fun ⟨_, hid, hd⟩ => ?_
  rw [fate_of_ids hf _ hid] at hd
  cases hd

variable [DecidableEq N] {fails : Nat → Bool}

/-- A broken entry is quarantined by the first job, as it is by the group. -/
theorem same_broken {e : RoutedEntry N} (hb : Broken s.cat e)
    (hno : ∀ i ∈ g.items, fails i.id = false) (hne : g.items ≠ [])
    (hc : Claims s.queue (g.items.map Item.id)) (total : Applied) :
    Same (runRows C expected fails s total g.items).1 (applyGroup C expected s g).1 := by
  rw [applyGroup_broken hb]
  have hord := ordered_items g
  generalize g.items = items at hno hne hc hord
  cases items with
  | nil => exact absurd rfl hne
  | cons i items =>
    have hstep : stepRow C expected fails s i =
        ({ s with cat := s.cat.quarantine, queue := s.queue.deleteJobs fun _ => true }, .zero) := by
      rw [stepRow, hno i mem_cons_self, if_neg (by decide), applyGroup_broken hb]
    rw [runRows_cons, hstep]
    have hempty : (s.queue.deleteJobs fun _ => true).jobs = [] := by simp [Queue.deleteJobs]
    have hcl : Closed s.cat.quarantine := closed_quarantine _
    obtain ⟨fate, hends, -, -, hst⟩ := runRows_ends C expected fails items
      { s with cat := s.cat.quarantine, queue := s.queue.deleteJobs fun _ => true }
      (total.add .zero)
      ⟨(nodup_cons.mp hc.nodup).2, fun n hn => hc.old n (mem_cons_of_mem _ hn),
        by simp [hempty]⟩
      (fun i' _ => ⟨by simp [hempty], by simp [hempty], .inr hcl⟩)
      (pairwise_cons.mp hord).2
    obtain ⟨hleave, hfates⟩ := hst (.inl hcl)
    have hdrop : ∀ i' ∈ items, fate i'.id = .dropped := fun i' hi' =>
      (hfates i' hi' (hno i' (.tail _ hi'))).trans (ending_closed hcl i')
    obtain ⟨hcells, hdead⟩ := hends.all_dropped hdrop
    have hjobs := hleave.empty hempty
    refine ⟨hcells, fun slot => ?_, hdead⟩
    simp [Queue.Pending, hjobs, hempty]

/-- A closed or ready entry. -/
theorem same_steady (hst : Steady s.cat)
    (hno : ∀ i ∈ g.items, fails i.id = false) (hc : Claims s.queue (g.items.map Item.id))
    (hk : ∀ i ∈ g.items, Known s i) (hv : OneVector g (isRecursive s.cat)) (total : Applied) :
    Same (runRows C expected fails s total g.items).1 (applyGroup C expected s g).1 := by
  obtain ⟨fate, hrows, -, hlater, hsteady⟩ :=
    runRows_ends C expected fails g.items s total hc hk (ordered_items g)
  obtain ⟨hleave, hfates⟩ := hsteady hst
  have hf : ∀ i ∈ g.items, fate i.id = ending C expected s.cat s.cells i :=
    fun i hi => hfates i hi (hno i hi)
  have hgroup := applyGroup_ends (Group.ids_eq g ▸ hc) hf
  refine hrows.same hgroup hleave (applyGroup_leaves hst hf hgroup) ?_
  rcases hst with hcl | ⟨e, hr⟩
  · have hdrop : ∀ i ∈ g.items, fate i.id = .dropped :=
      fun i hi => (hf i hi).trans (ending_closed hcl i)
    rw [(hrows.all_dropped hdrop).1, (hgroup.all_dropped hdrop).1]
  · have h₁ := hrows.effect
    have h₂ := hgroup.effect
    rw [hlater.ready e hr] at h₁
    rw [(applyGroup_later C expected s g).ready e hr] at h₂
    exact h₁.unique h₂ hv.agreed

/-- **Row by row as in one go**, where no single row is rejected, unless the column of the live
migration is gone. -/
theorem same_rows (hc : Claims s.queue (g.items.map Item.id)) (hk : ∀ i ∈ g.items, Known s i)
    (hno : ∀ i ∈ g.items, fails i.id = false) (hne : g.items ≠ [])
    (hgone : ∀ e, ¬ Gone s.cat e) (hv : OneVector g (isRecursive s.cat)) (total : Applied) :
    Same (runRows C expected fails s total g.items).1 (applyGroup C expected s g).1 := by
  rcases phase s.cat with hcl | ⟨e, hb⟩ | ⟨e, hg⟩ | hr
  · exact same_steady (.inl hcl) hno hc hk hv total
  · exact same_broken hb hno hne hc total
  · exact absurd hg (hgone e)
  · exact same_steady (.inr hr) hno hc hk hv total

end Same

end Postvec.WriteBack
