import Postvec.Registry.Swap

/-!
# Which copies a rollback moves back

`restore_swapped` moves back whatever lies at `.swap/<backend>/<name>`. That it is the copy which
the recorded transaction moved aside is so as long as nothing was there when the transaction began:
`begin_swap` does not look, and what `remove_dir_all` could not delete stays (`stale_restored`).

* `Own`: under a record that a rollback would use, every copy at a replaced model's place is of the
  recorded transaction. It holds in every image (`Inv.step`), through failing calls and crashes;
* **`restored_own`**: in every history in which each `begin_swap` finds the places of its
  replacements empty, a rollback moves back only copies of its own transaction.
-/

namespace Postvec.Registry.Swap

open Machine List Option Disk

variable {F : Type}

/-! ## 1. The invariant -/

/-- The copies at the places of the recorded replacements are the recorded transaction's. -/
def Own (d : Disk F) : Prop :=
  ∀ r, d.record = some r → r.phase = .swapping →
    ∀ m ∈ r.models, m.role = .replace → ∀ c, d.parked m.slot = some c → c.txn = r.txn

/-- Nothing lies at the places of the transaction's replacements. -/
def Bare (t : Txn) (d : Disk F) : Prop := ∀ m ∈ t.replaced, d.parked m.slot = none

/-- There is no other record than that of the transaction. -/
def Only (t : Txn) (d : Disk F) : Prop := d.record = none ∨ d.record = some (t.record .swapping)

/-- Images that have all of `models` agree on whether there is a `.swap`. -/
def Agree (v : Volume (Disk F) Dir) : Prop :=
  v.All fun d b => .models ∉ b → d.swap.isSome = v.live.swap.isSome

/-- What is known where a command has come to. -/
def Sys.Going (s : Sys F) : Prop :=
  match s.pc with
  | .opening t _ => s.vol.live.swap.isSome = true ∧ s.vol.All fun d b => .models ∉ b → Bare t d
  | .recording t _ => s.vol.live.swap.isSome = true ∧ s.vol.All fun d _ => Bare t d
  | .recorded t _ =>
    s.vol.live.record = some (t.record .swapping) ∧ s.vol.All fun d b => .swap ∉ b → Only t d
  | .quiescing t _ | .moving t _ | .aside t _ _ | .placed t _ _ | .loading t | .proven t =>
    s.vol.live.record = some (t.record .swapping) ∧ s.vol.All fun d _ => Only t d
  | .settling _ t => s.vol.live.record = some (t.record .swapping)
  | .restoring _ t todo _ => s.vol.live.record = some (t.record .swapping) ∧ todo ⊆ t.replaced
  | .retired _ t x _ todo _ =>
    (s.vol.live.record = some (t.record .swapping) ∧ todo ⊆ t.replaced) ∧
      ∃ m ∈ t.replaced, m.slot = x
  | .restored _ t _ todo _ => s.vol.live.record = some (t.record .swapping) ∧ todo ⊆ t.replaced
  | _ => True

structure Inv (s : Sys F) : Prop where
  own : s.vol.All fun d _ => Own d
  agree : Agree s.vol
  going : s.Going

/-! ## 2. Operations -/

section Operations

variable {v : Volume (Disk F) Dir} {f : Disk F → Disk F} {dirs : List Dir} {d : Disk F} {t : Txn}
  {d' : Disk F}

/-- What takes records and copies away, and brings none. -/
theorem Own.of_less (h : Own d) (hr : d'.record = none ∨ d'.record = d.record)
    (hp : ∀ y c, d'.parked y = some c → ∃ c', d.parked y = some c' ∧ c'.txn = c.txn) : Own d' := by
  intro r hrec hs m hm hrep c hc
  rcases hr with hr | hr
  · rw [hr] at hrec
    cases hrec
  · obtain ⟨c', hc', e⟩ := hp _ _ hc
    rw [← e]
    exact h r (hr ▸ hrec) hs m hm hrep c' hc'

theorem Own.same (h : Own d) (hr : d'.record = d.record)
    (hp : ∀ y, d'.parked y = d.parked y) : Own d' :=
  h.of_less (.inr hr) fun y c hc => ⟨c, by rw [← hp]; exact hc, rfl⟩

theorem Own.erased {x : Slot} (h : Own d) (hr : d'.record = d.record)
    (hp : ∀ y, d'.parked y = if y = x then none else d.parked y) : Own d' := by
  refine h.of_less (.inr hr) fun y c hc => ?_
  rw [hp] at hc
  split at hc
  · cases hc
  · exact ⟨c, hc, rfl⟩

theorem Own.rmSwap (d : Disk F) : Own d.rmSwap := by
  intro r hr
  rw [record_rmSwap] at hr
  cases hr

theorem Own.dropRecord (d : Disk F) : Own d.dropRecord := by
  intro r hr
  rw [record_dropRecord] at hr
  cases hr

theorem Own.shrink (h : Own d) (x : Slot) (keep : F → Bool) : Own (d.shrink x keep) := by
  refine h.of_less (.inr (record_shrink ..)) fun y c hc => ?_
  rw [parked_shrink] at hc
  split at hc
  · obtain ⟨c', hc', rfl⟩ := map_eq_some_iff.mp hc
    exact ⟨c', hc', rfl⟩
  · exact ⟨c, hc, rfl⟩

/-- A record over empty places. -/
theorem Own.setRecord (hb : Bare t d) : Own (d.setRecord (t.record .swapping)) := by
  intro r hr _ m hm hrep c hc
  rw [record_setRecord] at hr
  obtain ⟨-, -, rfl⟩ := map_eq_some_iff.mp hr
  rw [parked_setRecord, hb m (mem_filter.mpr ⟨hm, decide_eq_true hrep⟩)] at hc
  cases hc

theorem Own.confirm (d : Disk F) (t : Txn) : Own (d.setRecord (t.record .confirmed)) := by
  intro r hr hs
  rw [record_setRecord] at hr
  obtain ⟨-, -, rfl⟩ := map_eq_some_iff.mp hr
  cases hs

/-- The transaction moves a copy aside under its own record. -/
theorem Own.park (h : Own d) (ho : Only t d) (x : Slot) : Own (d.park t.txn x) := by
  intro r hr hs m hm hrep c hc
  rw [record_park] at hr
  by_cases e : m.slot = x
  · rw [e] at hc
    rcases txn_park _ hc with htxn | hold
    · rcases ho with ho | ho
      · rw [ho] at hr
        cases hr
      · rw [ho] at hr
        cases hr
        exact htxn
    · exact h r hr hs m hm hrep c (e ▸ hold)
  · rw [parked_park_of_ne _ _ e] at hc
    exact h r hr hs m hm hrep c hc

theorem agree_op (h : Agree v) (hf : ∀ d, (f d).swap.isSome = d.swap.isSome) :
    Agree (v.op dirs f) := by
  refine Volume.All.op h (fun d b hd _ hb => ?_) fun d b hd hb => ?_
  · rw [Volume.live_op, hf, hf]
    exact hd hb
  · rw [Volume.live_op, hf]
    exact hd fun hm => hb (mem_append_right _ hm)

/-- The directory `.swap` itself comes or goes. -/
theorem agree_models (v : Volume (Disk F) Dir) {b : Bool} (hf : ∀ d, (f d).swap.isSome = b) :
    Agree (v.op [.models] f) := by
  refine Volume.All.op (P := fun _ _ => True) (fun _ _ => trivial) (fun d _ _ _ _ => ?_)
    fun d b _ hb => ?_
  · rw [Volume.live_op, hf, hf]
  · exact absurd mem_cons_self hb

theorem agree_fsync (h : Agree v) (d : Dir) : Agree (v.fsync d) := Volume.All.sync h

theorem agree_clean (d : Disk F) : Agree (Volume.clean d : Volume (Disk F) Dir) :=
  Volume.all_clean fun _ => rfl

end Operations

/-! ## 3. Steps -/

section Steps

variable {s s' : Sys F} {dirs : List Dir} {f : Disk F → Disk F}

/-- Where only the place in the command changes. -/
theorem Inv.goto (hI : Inv s) {pc : Pc F} (h : ({ s with pc := pc } : Sys F).Going) :
    Inv { s with pc := pc } := ⟨hI.own, hI.agree, h⟩

theorem going_after (back : Bool) (h : s.pc = .after back) : s.Going := by
  cases back <;> simp [Sys.Going, h, Pc.after]

/-- A volume on which only the installed models changed. -/
theorem Inv.on_dest (hI : Inv s) {pc : Pc F} (hf : ∀ d, (f d).swap = d.swap)
    (h : ({ s with vol := s.vol.op dirs f, pc := pc } : Sys F).Going) :
    Inv { s with vol := s.vol.op dirs f, pc := pc } := by
  refine ⟨hI.own.keep fun d hd => ?_, agree_op hI.agree fun d => by rw [hf], h⟩
  exact hd.same (by rw [record, hf]; rfl) fun y => by rw [parked, hf]; rfl

theorem only_op {v : Volume (Disk F) Dir} {t : Txn}
    (h : v.live.record = some (t.record .swapping) ∧ v.All fun d _ => Only t d)
    (hf : ∀ d, (f d).record = d.record) :
    (v.op dirs f).live.record = some (t.record .swapping) ∧ (v.op dirs f).All fun d _ =>
    Only t d := by
  refine ⟨(hf _).trans h.1, h.2.keep fun d hd => ?_⟩
  unfold Only
  rw [hf]
  exact hd

/-- **The next call.** -/
theorem Inv.go (hI : Inv s) (h : s.go = some s') : Inv s' := by
  have hG := hI.going
  unfold Sys.go at h
  unfold Sys.Going at hG
  generalize s.pc = pc at h hG
  cases pc with
  | idle | ready | quiescing | loading | settling | reloading => cases h
  | opening t items =>
    cases h
    exact ⟨hI.own.sync, agree_fsync hI.agree _, hG.1, hG.2.fsync fun d b hd hb => hd hb⟩
  | recording t items =>
    cases h
    have hlive : (s.vol.live.setRecord (t.record .swapping)).record =
        some (t.record .swapping) := by
      obtain ⟨w, hw⟩ := isSome_iff_exists.mp hG.1
      rw [record_setRecord, hw]
      rfl
    refine ⟨(hI.own.and hG.2).op (fun d b hd _ => .setRecord hd.2) fun d b hd => hd.1,
      agree_op hI.agree fun d => isSome_setRecord .., hlive, ?_⟩
    refine Volume.All.op hI.own (fun d b _ _ _ => ?_) fun d b _ hb => absurd mem_cons_self hb
    -- an image without `.swap` has no record
    unfold Only
    rw [record_setRecord]
    cases d.swap with
    | none => exact .inl rfl
    | some w => exact .inr rfl
  | recorded t items =>
    cases h
    exact ⟨hI.own.sync, agree_fsync hI.agree _, hG.1, hG.2.fsync fun d b hd hb => hd hb⟩
  | moving t todo =>
    cases todo with
    | nil =>
      cases h
      exact hI.goto hG
    | cons m todo =>
      dsimp only at h
      cases hm : m.role with
      | install =>
        rw [hm] at h
        dsimp only at h
        split at h
        · cases h
          exact hI.goto hG.1
        · cases h
          exact hI.on_dest (fun _ => rfl) (only_op hG fun _ => rfl)
      | replace =>
        rw [hm] at h
        dsimp only at h
        split at h
        · cases h
          exact hI.goto hG.1
        · cases h
          exact ⟨(hI.own.and hG.2).op (fun d b hd _ => hd.1.park hd.2 _) fun d b hd => hd.1,
            agree_op hI.agree fun d => isSome_park .., only_op hG fun d => record_park ..⟩
  | aside t m todo =>
    cases h
    exact hI.on_dest (fun _ => rfl) (only_op hG fun _ => rfl)
  | placed t m todo =>
    cases h
    split
    · exact ⟨hI.own.sync.sync.sync, agree_fsync (agree_fsync (agree_fsync hI.agree _) _) _, hG.1,
        hG.2.sync.sync.sync⟩
    · exact ⟨hI.own.sync.sync, agree_fsync (agree_fsync hI.agree _) _, hG.1, hG.2.sync.sync⟩
  | proven t =>
    cases h
    exact ⟨hI.own.op (fun d b _ _ => .confirm d t) fun d b hd => hd,
      agree_op hI.agree fun d => isSome_setRecord .., trivial⟩
  | confirming t =>
    cases h
    exact ⟨hI.own.sync, agree_fsync hI.agree _, trivial⟩
  | discarding back =>
    dsimp only at h
    split at h
    · cases h
      exact ⟨hI.own.op (fun d b _ _ => .rmSwap d) fun d b hd => hd,
        agree_models _ fun d => isSome_rmSwap d, going_after back rfl⟩
    · cases h
  | restoring back t todo failed =>
    cases todo with
    | nil =>
      cases h
      refine hI.goto ?_
      cases failed <;> trivial
    | cons m todo =>
      have hsub : todo ⊆ t.replaced := fun x hx => hG.2 (mem_cons_of_mem _ hx)
      dsimp only at h
      split at h
      · cases h
        exact hI.goto ⟨hG.1, hsub⟩
      · split at h
        · cases h
          exact hI.on_dest (fun _ => rfl) ⟨⟨hG.1, hsub⟩, m, hG.2 mem_cons_self, rfl⟩
        · cases h
          exact ⟨hI.own.keep fun d hd => hd.erased (record_unpark ..) (parked_unpark _ _),
            agree_op hI.agree fun d => isSome_unpark .., (record_unpark ..).trans hG.1, hsub⟩
  | retired back t x grave todo failed =>
    cases h
    exact ⟨hI.own.keep fun d hd => hd.erased (record_unpark ..) (parked_unpark _ _),
      agree_op hI.agree fun d => isSome_unpark .., (record_unpark ..).trans hG.1.1, hG.1.2⟩
  | restored back t x todo failed =>
    cases h
    exact ⟨hI.own.sync.sync, agree_fsync (agree_fsync hI.agree _) _, hG⟩
  | removing back t todo failed =>
    cases todo with
    | nil =>
      cases h
      refine hI.goto ?_
      cases failed <;> trivial
    | cons m todo =>
      dsimp only at h
      split at h
      · cases h
        exact hI.goto trivial
      · cases h
        exact hI.on_dest (fun _ => rfl) trivial
  | purging back t x grave todo failed =>
    cases h
    exact hI.goto trivial
  | clearing back t =>
    dsimp only at h
    split at h
    · cases h
      exact ⟨hI.own.op (fun d b _ _ => .rmSwap d) fun d b hd => hd,
        agree_models _ fun d => isSome_rmSwap d, trivial⟩
    · cases h
  | cleared back =>
    cases h
    exact ⟨hI.own.sync, agree_fsync hI.agree _, going_after back rfl⟩

/-- **A failing call.** -/
theorem Inv.fail (hI : Inv s) {undone : Bool} (h : s.fail undone = some s') : Inv s' := by
  have hG := hI.going
  unfold Sys.fail at h
  unfold Sys.Going at hG
  generalize s.pc = pc at h hG
  cases pc with
  | opening | recording | recorded | proven | confirming | purging | clearing | cleared =>
    cases h
    exact hI.goto trivial
  | moving t todo =>
    cases todo with
    | nil => cases h
    | cons =>
      cases h
      exact hI.goto hG.1
  | aside t m todo =>
    dsimp only at h
    split at h
    · cases h
      exact ⟨hI.own.keep fun d hd => hd.erased (record_unpark ..) (parked_unpark _ _),
        agree_op hI.agree fun d => isSome_unpark .., (record_unpark ..).trans hG.1⟩
    · cases h
      exact hI.goto hG.1
  | placed | retired =>
    cases h
    exact hI.goto hG.1
  | discarding back =>
    cases h
    exact hI.goto (going_after _ rfl)
  | restoring back t todo failed =>
    cases todo with
    | nil => cases h
    | cons =>
      cases h
      exact hI.goto ⟨hG.1, fun x hx => hG.2 (mem_cons_of_mem _ hx)⟩
  | restored =>
    cases h
    exact hI.goto hG
  | removing back t todo failed =>
    cases todo with
    | nil => cases h
    | cons =>
      cases h
      exact hI.goto trivial
  | _ => cases h

/-- **An answer of the engine.** -/
theorem Inv.engine (hI : Inv s) {ok : Bool} (h : s.engine ok = some s') : Inv s' := by
  have hG := hI.going
  unfold Sys.engine at h
  unfold Sys.Going at hG
  generalize s.pc = pc at h hG
  cases pc with
  | quiescing t items =>
    cases h
    cases ok with
    | false => exact hI.goto trivial
    | true => exact hI.goto hG
  | loading t =>
    cases h
    cases ok with
    | false => exact hI.goto hG.1
    | true => exact hI.goto hG
  | settling back t =>
    cases h
    cases ok with
    | false => exact hI.goto trivial
    | true => exact hI.goto ⟨hG, List.Subset.refl _⟩
  | reloading back t =>
    cases h
    cases ok <;> exact hI.goto trivial
  | _ => cases h

theorem Inv.recover (hI : Inv s) : Inv s.recover := by
  unfold Sys.recover
  split
  · refine hI.goto ?_
    cases s.vol.live.swap.isSome <;> trivial
  · exact hI.goto trivial
  · rename_i models txn hr
    exact hI.goto hr

/-- What is asked of a history: `begin_swap` finds no `.swap`, or nothing at the places of the
    models it is going to replace, neither now nor after a crash. -/
def Sys.unlittered (s : Sys F) : Act F → Bool
  | .begin items =>
    s.vol.live.swap.isNone || s.vol.images.all fun i =>
      items.all fun m => m.role != .replace || (i.disk.parked m.slot).isNone
  | _ => true

theorem Inv.begin (hI : Inv s) {items : List (Item F)} (hu : s.unlittered (.begin items) = true) :
    Inv (s.begin items) := by
  unfold Sys.begin
  split
  · exact hI.goto trivial
  · by_cases hw : s.vol.live.swap.isSome = true
    · rw [if_pos hw]
      refine ⟨hI.own, hI.agree, hw, fun i hi _ m hm => ?_⟩
      -- the places are empty
      have hall : (s.vol.images.all fun i =>
          items.all fun m => m.role != .replace || (i.disk.parked m.slot).isNone) = true := by
        rw [Sys.unlittered, Bool.or_eq_true] at hu
        refine hu.resolve_left fun hn => ?_
        rw [isNone_iff_eq_none.mp hn] at hw
        cases hw
      obtain ⟨hmem, hrep⟩ := mem_filter.mp hm
      obtain ⟨m', hm', rfl⟩ := List.mem_map.mp hmem
      have := List.all_eq_true.mp (List.all_eq_true.mp hall i hi) m' hm'
      rw [Bool.or_eq_true] at this
      refine isNone_iff_eq_none.mp (this.resolve_left fun hne => ?_)
      have hrole : m'.role = .replace := of_decide_eq_true hrep
      rw [hrole] at hne
      cases hne
    · -- a new `.swap` is empty
      rw [if_neg hw]
      refine ⟨hI.own.keep fun d hd => hd.same (record_mkSwap d) (parked_mkSwap d),
        agree_models _ fun d => isSome_mkSwap d, rfl, ?_⟩
      refine Volume.All.op hI.agree (fun d b hd hb _ m _ => ?_)
        fun d b _ hb => absurd mem_cons_self hb
      have hnone : d.swap = none := by
        have := hd (hb _ mem_cons_self)
        rw [Bool.eq_false_iff.mpr hw] at this
        exact not_isSome_iff_eq_none.mp (by rw [this]; decide)
      rw [parked_mkSwap, parked, hnone]
      rfl

/-- **A step.** -/
theorem Inv.step [DecidableEq F] (hI : Inv s) {a : Act F} (hu : s.unlittered a = true)
    (h : s.step a = some s') : Inv s' := by
  -- the parts of a `remove_dir_all` leave the command where it is
  have hsweep : ∀ {f : Disk F → Disk F} {dirs : List Dir}, s.sweeping = true →
      (∀ d, Own d → Own (f d)) → (∀ d, (f d).swap.isSome = d.swap.isSome) →
      Inv { s with vol := s.vol.op dirs f } := by
    intro f dirs hs hf hf'
    refine ⟨hI.own.keep hf, agree_op hI.agree hf', ?_⟩
    unfold Sys.sweeping at hs
    unfold Sys.Going
    split at hs
    · rename_i hpc
      rw [hpc]
      trivial
    · rename_i hpc
      rw [hpc]
      trivial
    · cases hs
  cases a with
  | recover =>
    simp only [Sys.step] at h
    split at h
    · cases h
      exact hI.recover
    · cases h
  | begin items =>
    simp only [Sys.step] at h
    split at h
    · cases h
      exact hI.begin hu
    · cases h
  | edit x t =>
    simp only [Sys.step] at h
    split at h
    · rename_i hpc
      cases h
      refine hI.on_dest (fun _ => rfl) ?_
      rw [hpc]
      trivial
    · cases h
  | finish =>
    simp only [Sys.step] at h
    split at h
    · cases h
      exact hI.goto trivial
    · cases h
  | go => exact hI.go h
  | fail undone => exact hI.fail h
  | engine ok => exact hI.engine h
  | purge keep =>
    simp only [Sys.step] at h
    obtain ⟨g, hg, rfl⟩ := map_eq_some_iff.mp h
    refine ⟨hI.own.keep fun d hd => hd.same (record_purge ..) (parked_purge _ _ · _ _),
      agree_op hI.agree fun d => isSome_purge .., ?_⟩
    have hG := hI.going
    unfold Sys.grave at hg
    unfold Sys.Going at hG ⊢
    split at hg
    · rename_i hpc
      rw [hpc] at hG ⊢
      exact ⟨⟨(record_purge ..).trans hG.1.1, hG.1.2⟩, hG.2⟩
    · rename_i hpc
      rw [hpc]
      trivial
    · cases hg
  | dropRecord =>
    obtain ⟨hs, rfl⟩ := guarded h
    exact hsweep hs (fun d _ => .dropRecord d) fun d => isSome_dropRecord d
  | shrink x keep =>
    obtain ⟨hs, rfl⟩ := guarded h
    exact hsweep hs (fun d hd => hd.shrink x keep) fun d => isSome_shrink ..
  | drop x =>
    obtain ⟨⟨hs, -⟩, rfl⟩ := guarded h
    exact hsweep hs (fun d hd => hd.erased (record_drop ..) (parked_drop _ _))
      fun d => isSome_drop ..
  | crash k =>
    simp only [Sys.step] at h
    obtain ⟨v, hv, rfl⟩ := map_eq_some_iff.mp h
    obtain ⟨i, -, hi, rfl⟩ := hI.own.crash hv
    exact ⟨Volume.all_clean hi, agree_clean _, trivial⟩
  | kill =>
    cases h
    exact hI.goto trivial

end Steps

/-! ## 4. Histories -/

theorem inv_start (dest : Slot → Option (List F)) : Inv (Sys.start dest) :=
  ⟨Volume.all_clean fun _ h => (by cases h), agree_clean _, trivial⟩

/-- The transaction that is being rolled back, and the place whose copy the next call moves back. -/
def Sys.restores (s : Sys F) : Option (Txn × Slot) :=
  match s.pc with
  | .restoring _ t (m :: _) _ =>
    if (s.vol.live.parked m.slot).isSome && (s.vol.live.dest m.slot).isNone then some (t, m.slot)
    else none
  | .retired _ t x _ _ _ => some (t, x)
  | _ => none

theorem Inv.restores (hI : Inv s) {t : Txn} {x : Slot} (h : s.restores = some (t, x)) :
    s.vol.live.record = some (t.record .swapping) ∧ ∃ m ∈ t.replaced, m.slot = x := by
  have hG := hI.going
  unfold Sys.restores at h
  unfold Sys.Going at hG
  split at h
  · rename_i m _ _ hpc
    rw [hpc] at hG
    split at h
    · cases h
      exact ⟨hG.1, m, hG.2 mem_cons_self, rfl⟩
    · cases h
  · rename_i hpc
    rw [hpc] at hG
    cases h
    exact ⟨hG.1.1, hG.2⟩
  · cases h

/-- **A rollback moves back its own copies.** In every history of batches, failing calls and crashes
    in which each `begin_swap` finds the places of its replacements empty. -/
theorem restored_own [DecidableEq F] {dest : Slot → Option (List F)} {s : Sys F} {t : Txn}
    {x : Slot}
    (h : Reach Sys.step (fun s a => s.unlittered a = true) (.start dest) s)
    (hr : s.restores = some (t, x)) :
    s.vol.live.record = some (t.record .swapping) ∧
      ∀ c, s.vol.live.parked x = some c → c.txn = t.txn := by
  have hI : Inv s := h.invariant (inv_start dest) fun _ _ _ hI hu hs => hI.step hu hs
  obtain ⟨hrec, m, hm, rfl⟩ := hI.restores hr
  obtain ⟨hm, hrole⟩ := mem_filter.mp hm
  exact ⟨hrec, hI.own.live _ hrec rfl m hm (of_decide_eq_true hrole)⟩

/-- A model that is installed and replaced. -/
def modelSlot : Slot := ⟨['o'], ['m']⟩

/-- One file each: the first upgrade puts `2` in the place of `1`. -/
def installedFiles : Slot → Option (List Nat) := fun x => if x = modelSlot then some [1] else none

/-- An upgrade that is confirmed. -/
def upgradeRun (new : Nat) : List (Act Nat) :=
  [.recover, .begin [⟨modelSlot, .replace, [new]⟩], .go, .go, .go, .engine true, .go, .go, .go, .go,
    .engine true, .go, .go]

/-- A second upgrade is interrupted between its two renames and rolled back. -/
def interruptedRun : List (Act Nat) :=
  upgradeRun 2 ++ [.dropRecord, .shrink modelSlot fun _ => false, .drop modelSlot, .go, .recover,
    .begin [⟨modelSlot, .replace, [3]⟩], .go, .go, .go, .engine true, .go, .crash 0, .recover,
    .engine true]

theorem interruptedRun_restores :
    ∃ s : Sys Nat, Reach Sys.step (fun s a => s.unlittered a = true) (.start installedFiles) s ∧
      s.restores = some (⟨[⟨modelSlot, .replace⟩], 2⟩, modelSlot) ∧
      (s.vol.live.parked modelSlot).map Copy.files = some [2] ∧
      ∀ c, s.vol.live.parked modelSlot = some c → c.txn = 2 := by
  have hrun : (runWhile Sys.step (fun s a => s.unlittered a = true) (.start installedFiles)
      interruptedRun).any (fun s => decide (s.restores =
        some (⟨[⟨modelSlot, .replace⟩], 2⟩, modelSlot) ∧
        (s.vol.live.parked modelSlot).map Copy.files = some [2])) = true := by decide +kernel
  obtain ⟨s, hs, hp⟩ := Reach.exists_of_runWhile hrun
  obtain ⟨hr, hf⟩ := of_decide_eq_true hp
  exact ⟨s, hs, hr, hf, (restored_own hs hr).2⟩

/-- The copy of the first upgrade could not be deleted, twice. The second upgrade has moved nothing
    when the engine stops answering; its recovery is about to move the first one's copy back. -/
theorem stale_restored :
    ∃ (s : Sys Nat) (t : Txn) (x : Slot) (c : Copy Nat),
      Reach Sys.step (fun _ _ => True) (.start installedFiles) s ∧
      s.restores = some (t, x) ∧ s.vol.live.parked x = some c ∧ c.txn ≠ t.txn := by
  have hrun : (runWhile Sys.step (fun _ _ => True) (.start installedFiles)
      (upgradeRun 2 ++ [.dropRecord, .fail false, .recover, .fail false,
        .begin [⟨modelSlot, .replace, [3]⟩], .go, .go, .go, .engine false, .recover, .engine true,
        .go])).any (fun s => decide (s.restores = some (⟨[⟨modelSlot, .replace⟩], 2⟩, modelSlot)) &&
          (s.vol.live.parked modelSlot).any fun c => c.txn = 1) = true := by decide +kernel
  obtain ⟨s, hs, hp⟩ := Reach.exists_of_runWhile hrun
  obtain ⟨hr, hc⟩ := Bool.and_eq_true_iff.mp hp
  obtain ⟨c, hc, htxn⟩ := (Option.any_eq_true _ _).mp hc
  refine ⟨s, _, _, c, hs, of_decide_eq_true hr, hc, ?_⟩
  rw [of_decide_eq_true htxn]
  decide

end Postvec.Registry.Swap
