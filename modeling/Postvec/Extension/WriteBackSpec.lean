import Mathlib.Data.List.Count
import Mathlib.Data.List.Nodup
import Postvec.Extension.WriteBack

/-!
# What the statements of a write-back do to the queue and to the rows

* `Leaves`, `Buries`: some jobs leave the queue as a `Fate` says for each, and the dead ones are in
  `jobs_dead` once; both compose over statements about different jobs;
* `Effect`: the rows some NULLs and some vectors leave, up to the choice of `UPDATE .. FROM`;
* `loop_spec`: the loop over the outcomes of a group.
-/

namespace Postvec.WriteBack

open List Option

/-! ## 1. Where a job goes -/

/-- The end of a job of the group. -/
inductive Fate where
  /-- deleted, its vector written -/
  | written
  /-- deleted, its row set to NULL -/
  | nulled
  /-- deleted, the entry is gone, disabled or quarantined -/
  | dropped
  /-- deleted, the chunk is not there any more -/
  | obsolete
  /-- pending under its key -/
  | released
  | dead
deriving DecidableEq, Repr

variable {K V N : Type*}

/-- The jobs `ids` leave the queue as `fate` says, and nothing else changes: a released job is
pending again under a new id, or its key was pending already; a dead one was moved. -/
structure Leaves (ids : List Nat) (fate : Nat → Fate) (q q' : Queue K) : Prop where
  left : ∀ j ∈ q'.jobs, (j ∈ q.jobs ∧ j.id ∉ ids) ∨
    (j.claimed = false ∧ q.nextId ≤ j.id ∧
      ∃ i ∈ q.jobs, i.id ∈ ids ∧ fate i.id = .released ∧ i.slot = j.slot)
  keep : ∀ j ∈ q.jobs, j.id ∉ ids → j ∈ q'.jobs
  released : ∀ i ∈ q.jobs, i.id ∈ ids → fate i.id = .released → q'.Pending i.slot
  next : q.nextId ≤ q'.nextId

/-- The jobs of `ids` whose fate is to be dead are in `jobs_dead`, once, and no others. -/
structure Buries (ids : List Nat) (fate : Nat → Fate) (q q' : Queue K) : Prop where
  mem : ∀ d, d ∈ q'.dead ↔ d ∈ q.dead ∨ (d ∈ q.jobs ∧ d.id ∈ ids ∧ fate d.id = .dead)
  count : ∀ n, (q'.dead.map Job.id).count n = (q.dead.map Job.id).count n +
    if n ∈ ids ∧ fate n = .dead then (q.jobs.map Job.id).count n else 0

section Leaves

variable {ids ids₁ ids₂ : List Nat} {fate : Nat → Fate} {q q' q'' : Queue K} {ids' : List Nat}

/-- The ids matter as a set. -/
theorem Leaves.congr (h : Leaves ids fate q q') (he : ∀ n, n ∈ ids ↔ n ∈ ids') :
    Leaves ids' fate q q' where
  left := by simpa only [he] using h.left
  keep := by simpa only [he] using h.keep
  released := by simpa only [he] using h.released
  next := h.next

theorem Buries.congr (h : Buries ids fate q q') (he : ∀ n, n ∈ ids ↔ n ∈ ids') :
    Buries ids' fate q q' where
  mem := by simpa only [he] using h.mem
  count := by simpa only [he] using h.count

theorem leaves_refl (q : Queue K) : Leaves [] fate q q where
  left := fun _ hj => .inl ⟨hj, by simp⟩
  keep := fun _ hj _ => hj
  released := by simp
  next := Nat.le_refl _

theorem buries_refl (q : Queue K) : Buries [] fate q q where
  mem := by simp
  count := by simp

/-- The ids are of claimed jobs of the queue, apart from those already dealt with. -/
structure Apart (ids₁ ids₂ : List Nat) (q : Queue K) : Prop where
  disjoint : ∀ n ∈ ids₂, n ∉ ids₁
  old : ∀ n ∈ ids₂, n < q.nextId
  claimed : ∀ j ∈ q.jobs, j.id ∈ ids₂ → j.claimed = true

/-- A job of the later ids is as it was. -/
theorem Leaves.mem_later (h : Leaves ids₁ fate q q') (ha : Apart ids₁ ids₂ q) {j : Job K}
    (hid : j.id ∈ ids₂) : j ∈ q'.jobs ↔ j ∈ q.jobs := by
  constructor
  · intro hj
    rcases h.left j hj with ⟨hj, -⟩ | ⟨-, hge, -⟩
    · exact hj
    · have := ha.old _ hid
      omega
  · exact fun hj => h.keep j hj (ha.disjoint _ hid)

theorem Leaves.trans (h : Leaves ids₁ fate q q') (h' : Leaves ids₂ fate q' q'')
    (ha : Apart ids₁ ids₂ q) : Leaves (ids₁ ++ ids₂) fate q q'' where
  left := by
    intro j hj
    rcases h'.left j hj with ⟨hj, hn₂⟩ | ⟨hc, hge, i, hi, hid, hf, hs⟩
    · rcases h.left j hj with ⟨hj, hn₁⟩ | ⟨hc, hge, i, hi, hid, hf, hs⟩
      · exact .inl ⟨hj, by simp [hn₁, hn₂]⟩
      · exact .inr ⟨hc, hge, i, hi, by simp [hid], hf, hs⟩
    · have hi' := (h.mem_later ha hid).mp hi
      exact .inr ⟨hc, Nat.le_trans h.next hge, i, hi', by simp [hid], hf, hs⟩
  keep := by
    intro j hj hn
    rw [mem_append, not_or] at hn
    exact h'.keep j (h.keep j hj hn.1) hn.2
  released := by
    intro i hi hid hf
    rcases mem_append.mp hid with hid | hid
    · -- the pending job of the slot is not one of the later ids: those are claimed
      obtain ⟨p, hp, hc, hs⟩ := h.released i hi hid hf
      have hp₂ : p.id ∉ ids₂ := by
        intro hp₂
        have := ha.claimed p ((h.mem_later ha hp₂).mp hp) hp₂
        rw [hc] at this
        cases this
      exact ⟨p, h'.keep p hp hp₂, hc, hs⟩
    · exact h'.released i ((h.mem_later ha hid).mpr hi) hid hf
  next := Nat.le_trans h.next h'.next

theorem Leaves.count_later (h : Leaves ids₁ fate q q') (ha : Apart ids₁ ids₂ q) {n : Nat}
    (hn : n ∈ ids₂) : (q'.jobs.map Job.id).count n = (q.jobs.map Job.id).count n := by
  have hmem : n ∈ q'.jobs.map Job.id ↔ n ∈ q.jobs.map Job.id := by
    simp only [List.mem_map]
    constructor
    · rintro ⟨j, hj, rfl⟩
      exact ⟨j, (h.mem_later ha hn).mp hj, rfl⟩
    · rintro ⟨j, hj, rfl⟩
      exact ⟨j, (h.mem_later ha hn).mpr hj, rfl⟩
  rw [q'.ids_nodup.count, q.ids_nodup.count]
  simp only [hmem]

theorem Buries.trans (h : Buries ids₁ fate q q') (hl : Leaves ids₁ fate q q')
    (h' : Buries ids₂ fate q' q'') (ha : Apart ids₁ ids₂ q) :
    Buries (ids₁ ++ ids₂) fate q q'' where
  mem := by
    intro d
    rw [h'.mem, h.mem, mem_append]
    constructor
    · rintro ((hd | ⟨hd, hid, hf⟩) | ⟨hd, hid, hf⟩)
      · exact .inl hd
      · exact .inr ⟨hd, .inl hid, hf⟩
      · exact .inr ⟨(hl.mem_later ha hid).mp hd, .inr hid, hf⟩
    · rintro (hd | ⟨hd, hid | hid, hf⟩)
      · exact .inl (.inl hd)
      · exact .inl (.inr ⟨hd, hid, hf⟩)
      · exact .inr ⟨(hl.mem_later ha hid).mpr hd, hid, hf⟩
  count := by
    intro n
    rw [h'.count, h.count]
    by_cases h₂ : n ∈ ids₂
    · have h₁ := ha.disjoint n h₂
      simp [h₁, h₂, hl.count_later ha h₂]
    · simp [h₂]

end Leaves

section Statements

variable [DecidableEq K] {ids : List Nat} {fate : Nat → Fate} (q : Queue K)

section

omit [DecidableEq K]

theorem leaves_deleteJobs (h : ∀ n ∈ ids, fate n ≠ .released) :
    Leaves ids fate q (deleteIds q ids) where
  left := by
    intro j hj
    obtain ⟨hj, hn⟩ := Queue.mem_deleteJobs.mp hj
    exact .inl ⟨hj, by simpa using hn⟩
  keep := fun j hj hn => Queue.mem_deleteJobs.mpr ⟨hj, by simpa using hn⟩
  released := fun i _ hid hf => absurd hf (h _ hid)
  next := Nat.le_refl _

theorem buries_none {q' : Queue K} (hd : q'.dead = q.dead) (h : ∀ n ∈ ids, fate n ≠ .dead) :
    Buries ids fate q q' where
  mem := by
    intro d
    rw [hd]
    exact ⟨.inl, fun hd => hd.elim id fun ⟨_, hid, hf⟩ => absurd hf (h _ hid)⟩
  count := by
    intro n
    rw [hd, if_neg, Nat.add_zero]
    exact fun ⟨hid, hf⟩ => h n hid hf

theorem leaves_moveToDead (h : ∀ n ∈ ids, fate n = .dead) :
    Leaves ids fate q (deadIds q ids) := by
  have hl : Leaves ids fate q (deleteIds q ids) :=
    leaves_deleteJobs q fun n hn hf => by rw [h n hn] at hf; cases hf
  exact ⟨hl.left, hl.keep, hl.released, hl.next⟩

theorem buries_moveToDead (h : ∀ n ∈ ids, fate n = .dead) : Buries ids fate q (deadIds q ids) where
  mem := by
    intro d
    rw [deadIds, Queue.mem_dead_moveToDead]
    refine or_congr_right (and_congr_right fun _ => ?_)
    rw [contains_iff_mem]
    exact ⟨fun hid => ⟨hid, h _ hid⟩, fun hid => hid.1⟩
  count := by
    intro n
    have hmoved : (q.jobs.filter fun j => ids.contains j.id).map Job.id =
        (q.jobs.map Job.id).filter fun n => ids.contains n := by
      rw [List.filter_map]
      rfl
    show ((q.dead ++ q.jobs.filter fun j => ids.contains j.id).map Job.id).count n = _
    rw [map_append, count_append, hmoved]
    by_cases hn : n ∈ ids
    · rw [if_pos ⟨hn, h n hn⟩, count_filter (by simpa using hn)]
    · rw [if_neg fun hc => hn hc.1]
      refine congrArg _ (count_eq_zero_of_not_mem fun hc => hn ?_)
      simpa using (mem_filter.mp hc).2

end

theorem leaves_unclaimJobs (r : Bool) (h : ∀ n ∈ ids, fate n = .released) :
    Leaves ids fate q (q.unclaimJobs ids r) where
  left := by
    intro j hj
    rcases Queue.mem_unclaimJobs hj with hj | ⟨hc, hge, i, hi, hid, hs⟩
    · exact .inl hj
    · exact .inr ⟨hc, hge, i, hi, hid, h _ hid, hs⟩
  keep := fun _ hj hn => Queue.mem_unclaimJobs_of_notMem hj hn
  released := fun _ hi hid _ => Queue.pending_unclaimJobs hi hid
  next := Queue.le_nextId_unclaimJobs q ids r

end Statements

/-! ## 2. What becomes of the rows -/

section Rows

variable [DecidableEq K] {cols : List Text} {col : Text} {pks pks₁ pks₂ : List K}
  {d d₁ d₂ : List (Target K × V)} {c c' c'' : Target K → Option (Cells V)}

/-- A row with the columns `cols` empty if it is one of `pks`. -/
def emptied (cols : List Text) (pks : List K) (t : Target K) (r : Cells V) : Cells V :=
  if t ∈ pks.map Target.row then fun c => if c ∈ cols then none else r c else r

/-- The rows of `pks` are emptied, and then each row a vector of `d` is for has one of them in
`col`; every other row is as it was, and no row comes or goes. -/
structure Effect (cols : List Text) (col : Text) (pks : List K) (d : List (Target K × V))
    (c c' : Target K → Option (Cells V)) : Prop where
  absent : ∀ t, c t = none → c' t = none
  present : ∀ t r, c t = some r →
    (∃ v, (t, v) ∈ d ∧ c' t = some ((emptied cols pks t r).set col (some v))) ∨
      ((∀ v, (t, v) ∉ d) ∧ c' t = some (emptied cols pks t r))

@[simp] theorem emptied_nil (t : Target K) (r : Cells V) : emptied cols [] t r = r := by
  simp [emptied]

theorem emptied_append (t : Target K) (r : Cells V) :
    emptied cols (pks₁ ++ pks₂) t r = emptied cols pks₂ t (emptied cols pks₁ t r) := by
  unfold emptied
  rw [map_append]
  funext x
  by_cases h₁ : t ∈ pks₁.map Target.row <;> by_cases h₂ : t ∈ pks₂.map Target.row <;>
    by_cases hx : x ∈ cols <;> simp [h₁, h₂, hx]

@[simp] theorem set_set (v v' : Option V) (r : Cells V) :
    (r.set col v).set col v' = r.set col v' := by
  funext x
  unfold Cells.set
  split <;> rfl

theorem effect_refl (cols : List Text) (col : Text) (c : Target K → Option (Cells V)) :
    Effect cols col [] [] c c :=
  ⟨fun _ h => h, fun t r h => .inr ⟨by simp, by rw [h, emptied_nil]⟩⟩

theorem effect_nullRows (col : Text) (c : Target K → Option (Cells V)) :
    Effect cols col pks [] c (nullRows cols pks c) := by
  constructor
  · intro t h
    rw [nullRows, h, map_none]
  · intro t r h
    refine .inr ⟨by simp, ?_⟩
    rw [nullRows, h, map_some]
    rfl

theorem effect_updateFrom (cols : List Text) (p : Pick V) (c : Target K → Option (Cells V)) :
    Effect cols col [] d c (updateFrom p col d c) := by
  constructor
  · intro t h
    rw [updateFrom, h, map_none]
  · intro t r h
    rw [updateFrom, h, map_some, emptied_nil]
    cases hp : p.choose ((d.filter fun x => x.1 = t).map Prod.snd) with
    | none =>
      refine .inr ⟨fun v hv => ?_, rfl⟩
      have hne : (d.filter fun x => x.1 = t).map Prod.snd ≠ [] :=
        ne_nil_of_mem (List.mem_map.mpr ⟨(t, v), mem_filter.mpr ⟨hv, by simp⟩, rfl⟩)
      have hsome := p.total _ hne
      rw [hp] at hsome
      cases hsome
    | some v =>
      obtain ⟨⟨t', v'⟩, hx, rfl⟩ := List.mem_map.mp (p.mem _ _ hp)
      obtain ⟨hx, ht⟩ := mem_filter.mp hx
      exact .inl ⟨v', of_decide_eq_true ht ▸ hx, rfl⟩

/-- Rows are emptied before vectors are written. -/
theorem Effect.trans (h : Effect cols col pks₁ d₁ c c') (h' : Effect cols col pks₂ d₂ c' c'')
    (hd : d₁ = [] ∨ pks₂ = []) : Effect cols col (pks₁ ++ pks₂) (d₁ ++ d₂) c c'' := by
  constructor
  · exact fun t ht => h'.absent t (h.absent t ht)
  · intro t r ht
    rw [emptied_append]
    rcases h.present t r ht with ⟨v₁, hv₁, ht₁⟩ | ⟨hno, ht₁⟩
    · -- a vector was written before: nothing is emptied afterwards
      have hpks : pks₂ = [] := hd.resolve_left (ne_nil_of_mem hv₁)
      subst hpks
      rcases h'.present t _ ht₁ with ⟨v₂, hv₂, ht₂⟩ | ⟨-, ht₂⟩
      · exact .inl ⟨v₂, mem_append_right _ hv₂, by simpa using ht₂⟩
      · exact .inl ⟨v₁, mem_append_left _ hv₁, by simpa using ht₂⟩
    · rcases h'.present t _ ht₁ with ⟨v₂, hv₂, ht₂⟩ | ⟨hno₂, ht₂⟩
      · exact .inl ⟨v₂, mem_append_right _ hv₂, ht₂⟩
      · refine .inr ⟨fun v hv => ?_, ht₂⟩
        exact (mem_append.mp hv).elim (hno v) (hno₂ v)

theorem Effect.isSome (h : Effect cols col pks d c c') (t : Target K) :
    (c' t).isSome = (c t).isSome := by
  cases ht : c t with
  | none => rw [h.absent t ht]
  | some r =>
    rcases h.present t r ht with ⟨v, -, h₁⟩ | ⟨-, h₁⟩ <;> rw [h₁] <;> rfl

/-- The vectors for one row are the same. -/
def Agreed (d : List (Target K × V)) : Prop := ∀ t v v', (t, v) ∈ d → (t, v') ∈ d → v = v'

/-- The effect says what every row holds, where the vectors for one row agree. -/
theorem Effect.unique (h : Effect cols col pks d c c') (h' : Effect cols col pks d c c'')
    (hd : Agreed d) : c' = c'' := by
  funext t
  cases ht : c t with
  | none => rw [h.absent t ht, h'.absent t ht]
  | some r =>
    rcases h.present t r ht with ⟨v, hv, h₁⟩ | ⟨hno, h₁⟩ <;>
      rcases h'.present t r ht with ⟨v', hv', h₂⟩ | ⟨hno', h₂⟩ <;> rw [h₁, h₂]
    · rw [hd t v v' hv hv']
    · exact absurd hv (hno' v)
    · exact absurd hv' (hno v')

end Rows

/-! ## 3. The loop over the outcomes -/

section Loop

variable [DecidableEq K] {C : Config V} {dim : Nat} {fate : Nat → Fate} {q : Queue K}
  {ids ids' ids₁ ids₂ : List Nat}

/-- The ids are of claimed jobs of the queue. -/
structure Claims (q : Queue K) (ids : List Nat) : Prop where
  nodup : ids.Nodup
  old : ∀ n ∈ ids, n < q.nextId
  claimed : ∀ j ∈ q.jobs, j.id ∈ ids → j.claimed = true

section

omit [DecidableEq K]

theorem Claims.sublist (h : Claims q ids) (hs : ids'.Sublist ids) : Claims q ids' where
  nodup := h.nodup.sublist hs
  old := fun n hn => h.old n (hs.subset hn)
  claimed := fun j hj hn => h.claimed j hj (hs.subset hn)

theorem Claims.perm (h : Claims q ids) (hp : ids'.Perm ids) :
    Claims q ids' where
  nodup := hp.nodup_iff.mpr h.nodup
  old := fun n hn => h.old n (hp.mem_iff.mp hn)
  claimed := fun j hj hn => h.claimed j hj (hp.mem_iff.mp hn)

theorem Claims.apart (h : Claims q (ids₁ ++ ids₂)) :
    Apart ids₁ ids₂ q where
  disjoint := fun n h₂ h₁ => (nodup_append.mp h.nodup).2.2 n h₁ n h₂ rfl
  old := fun n hn => h.old n (mem_append_right _ hn)
  claimed := fun j hj hn => h.claimed j hj (mem_append_right _ hn)

theorem Claims.after {q' : Queue K} (h : Claims q (ids₁ ++ ids₂))
    (hl : Leaves ids₁ fate q q') : Claims q' ids₂ where
  nodup := (nodup_append.mp h.nodup).2.1
  old := fun n hn => Nat.lt_of_lt_of_le (h.apart.old n hn) hl.next
  claimed := fun j hj hn => h.apart.claimed j ((hl.mem_later h.apart hn).mp hj) hn

end

/-- The vector a job of the loop brings. -/
def okOf (C : Config V) (dim : Nat) (x : EmbedJob K × ItemOutcome V) : Option (EmbedJob K × V) :=
  match x.2 with
  | .ok v => if C.width v ≠ dim then none else some (x.1, v)
  | _ => none

/-- Where a job of the loop goes. -/
def settle (C : Config V) (dim : Nat) (there : Bool) (x : EmbedJob K × ItemOutcome V) : Fate :=
  match x.2 with
  | .ok v => if C.width v ≠ dim then .dead else if there then .written else .obsolete
  | .dead => .dead
  | .retry => if x.1.attempts > C.maxRetries then .dead else .released

/-- The jobs the loop itself ends. -/
def lost (C : Config V) (dim : Nat) (embeds : List (EmbedJob K × ItemOutcome V)) : List Nat :=
  (embeds.filter fun x => (okOf C dim x).isNone).map (·.1.id)

section

omit [DecidableEq K]

theorem lost_sublist (embeds : List (EmbedJob K × ItemOutcome V)) :
    (lost C dim embeds).Sublist (embeds.map (·.1.id)) := filter_sublist.map _

theorem settle_of_ok {x : EmbedJob K × ItemOutcome V} {y : EmbedJob K × V} (there : Bool)
    (h : okOf C dim x = some y) :
    y.1 = x.1 ∧ settle C dim there x = if there then .written else .obsolete := by
  unfold okOf at h
  split at h
  · rename_i v hv
    split at h
    · cases h
    · rename_i hw
      cases h
      exact ⟨rfl, by simp only [settle, hv, if_neg hw]⟩
  · cases h

theorem okIds_eq (embeds : List (EmbedJob K × ItemOutcome V)) :
    (embeds.filterMap (okOf C dim)).map (·.1.id) =
      (embeds.filter fun x => (okOf C dim x).isSome).map (·.1.id) := by
  induction embeds with
  | nil => rfl
  | cons x xs ih =>
    cases hx : okOf C dim x with
    | none => simp [hx, ih]
    | some y =>
      have hy : y.1 = x.1 := (settle_of_ok true hx).1
      simp [hx, ih, hy]

/-- The jobs that end in the loop and those that are written are the jobs of the loop. -/
theorem lost_perm (embeds : List (EmbedJob K × ItemOutcome V)) :
    (lost C dim embeds ++ (embeds.filterMap (okOf C dim)).map (·.1.id)).Perm
      (embeds.map (·.1.id)) := by
  rw [okIds_eq, lost, ← map_append]
  refine List.Perm.map _ ?_
  have h := filter_append_perm (fun x => (okOf C dim x).isNone) embeds
  simpa only [not_isNone] using h

end

/-- One outcome: a vector to write, or the job ends. -/
theorem applyOutcome_spec (l : Loop K V) (x : EmbedJob K × ItemOutcome V) (there : Bool)
    (hf : fate x.1.id = settle C dim there x) :
    (∃ y, okOf C dim x = some y ∧
      applyOutcome C dim l x = { l with oks := l.oks ++ [y] }) ∨
    (okOf C dim x = none ∧ (applyOutcome C dim l x).oks = l.oks ∧
      Leaves [x.1.id] fate l.queue (applyOutcome C dim l x).queue ∧
      Buries [x.1.id] fate l.queue (applyOutcome C dim l x).queue) := by
  obtain ⟨j, o⟩ := x
  have dead : fate j.id = .dead →
      Leaves [j.id] fate l.queue (deadIds l.queue [j.id]) ∧
      Buries [j.id] fate l.queue (deadIds l.queue [j.id]) := by
    intro hd
    have hall : ∀ n ∈ [j.id], fate n = .dead := by simpa using hd
    exact ⟨leaves_moveToDead _ hall, buries_moveToDead _ hall⟩
  cases o with
  | ok v =>
    by_cases hw : C.width v ≠ dim
    · simp only [settle, if_pos hw] at hf
      exact .inr (by simpa [applyOutcome, okOf, hw] using dead hf)
    · exact .inl ⟨(j, v), by simp [okOf, hw], by simp [applyOutcome, hw]⟩
  | dead => exact .inr (by simpa [applyOutcome, okOf] using dead hf)
  | retry =>
    by_cases ha : j.attempts > C.maxRetries
    · simp only [settle, if_pos ha] at hf
      exact .inr (by simpa [applyOutcome, okOf, ha] using dead hf)
    · simp only [settle, if_neg ha] at hf
      have hall : ∀ n ∈ [j.id], fate n = .released := by simpa using hf
      refine .inr ⟨rfl, ?_⟩
      simp only [applyOutcome, if_neg ha]
      refine ⟨trivial, leaves_unclaimJobs _ _ hall, buries_none _ (by simp) ?_⟩
      intro n hn hc
      rw [hall n hn] at hc
      cases hc

/-- The whole loop. -/
theorem loop_spec (there : EmbedJob K → Bool) :
    ∀ (embeds : List (EmbedJob K × ItemOutcome V)) (l : Loop K V),
      (∀ x ∈ embeds, fate x.1.id = settle C dim (there x.1) x) →
      Claims l.queue (embeds.map (·.1.id)) →
      (embeds.foldl (applyOutcome C dim) l).oks = l.oks ++ embeds.filterMap (okOf C dim) ∧
      Leaves (lost C dim embeds) fate l.queue (embeds.foldl (applyOutcome C dim) l).queue ∧
      Buries (lost C dim embeds) fate l.queue (embeds.foldl (applyOutcome C dim) l).queue
  | [], l, _, _ => ⟨by simp, leaves_refl _, buries_refl _⟩
  | x :: xs, l, hf, hc => by
    have hxs : ∀ y ∈ xs, fate y.1.id = settle C dim (there y.1) y :=
      fun y hy => hf y (mem_cons_of_mem _ hy)
    rw [foldl_cons]
    rcases applyOutcome_spec l x (there x.1) (hf x mem_cons_self) with
      ⟨y, hy, he⟩ | ⟨hn, hoks, hl, hb⟩
    · -- the job waits for the `UPDATE`
      have hlost : lost C dim (x :: xs) = lost C dim xs := by simp [lost, hy]
      have hc' : Claims l.queue (xs.map (·.1.id)) := hc.sublist (sublist_cons_self _ _)
      rw [he, hlost]
      obtain ⟨h₁, h₂, h₃⟩ := loop_spec there xs { l with oks := l.oks ++ [y] } hxs hc'
      refine ⟨?_, h₂, h₃⟩
      rw [h₁]
      simp [hy]
    · have hlost : lost C dim (x :: xs) = x.1.id :: lost C dim xs := by simp [lost, hn]
      have hc' : Claims (applyOutcome C dim l x).queue (xs.map (·.1.id)) := hc.after hl
      obtain ⟨h₁, h₂, h₃⟩ := loop_spec there xs (applyOutcome C dim l x) hxs hc'
      have ha : Apart [x.1.id] (lost C dim xs) l.queue :=
        (hc.sublist ((lost_sublist xs).cons_cons x.1.id)).apart
      refine ⟨?_, hlost ▸ hl.trans h₂ ha, hlost ▸ hb.trans hl h₃ ha⟩
      rw [h₁, hoks]
      simp [hn]

/-- Every turn of the loop counts its job, or keeps it to be written. -/
theorem applyOutcome_total (l : Loop K V) (x : EmbedJob K × ItemOutcome V) :
    (applyOutcome C dim l x).applied.total + (applyOutcome C dim l x).oks.length =
      l.applied.total + l.oks.length + 1 := by
  obtain ⟨j, o⟩ := x
  cases o with
  | ok v =>
    simp only [applyOutcome]
    split <;> simp only [Applied.add, Applied.total, length_append, length_singleton] <;>
      omega
  | dead =>
    simp only [applyOutcome, Applied.add, Applied.total]
    omega
  | retry =>
    simp only [applyOutcome]
    split <;> simp only [Applied.add, Applied.total] <;> omega

theorem loop_total : ∀ (embeds : List (EmbedJob K × ItemOutcome V)) (l : Loop K V),
    (embeds.foldl (applyOutcome C dim) l).applied.total +
      (embeds.foldl (applyOutcome C dim) l).oks.length =
        l.applied.total + l.oks.length + embeds.length
  | [], _ => rfl
  | x :: xs, l => by
    have hstep : (applyOutcome C dim l x).applied.total + (applyOutcome C dim l x).oks.length =
        l.applied.total + l.oks.length + 1 := applyOutcome_total l x
    rw [foldl_cons, loop_total xs, hstep, length_cons]
    omega

end Loop

end Postvec.WriteBack
