import Postvec.Registry.SwapAtomic

/-!
# Crashes and recoveries of a batch

The calls of a command, one after the other, and what a crash leaves, keep `Batch.Holds`; from it

* **`batch_whole`**: if no crash that leaves no record has lost changes of a backend directory and
  no process is killed between a rename and its sync, then after a recovery all destinations are as
  before or all are new, a second recovery changes nothing, and until the confirmed record is on
  disk every predecessor is complete in every image;
* `recoveries_fail`: a rolled back install is there again after the next crash, with no record of
  it; and a process is killed before it has synced the confirmed record, the next command deletes
  the predecessors, and a crash brings the old record back.
-/

namespace Postvec.Registry.Swap

open Machine List Option Disk

namespace Batch

variable {F : Type} {B : Batch F} {s s' : Sys F} {t : Txn} {back failed : Bool} {x : SwapModel}
  {todo : List SwapModel}

/-! ## 1. Steps -/

theorem holds_after (back : Bool) (hpc : s.pc = .after back) (h : s.vol.All (B.Quiet s.confirmed))
    (hl : s.vol.live.swap = none) : B.Holds s := by
  unfold Holds
  cases back with
  | false =>
    rw [hpc]
    refine .inr ⟨h, not_swapping (.inl ?_)⟩
    rw [Disk.record, hl]
    rfl
  | true =>
    rw [hpc]
    exact ⟨h, hl⟩

/-- The next item of a batch. -/
theorem Holds.move {m : Item F} {todo : List (Item F)} (hpc : s.pc = .moving t (m :: todo))
    (hh : B.Holds s) (h : s.go = some s') : B.Holds s' := by
  unfold Holds at hh
  rw [hpc] at hh
  obtain ⟨⟨rfl, hc⟩, done, hitems, hM⟩ := hh
  have hmem : m ∈ B.items := by
    rw [hitems]
    exact mem_append_right _ mem_cons_self
  have hfresh := hM.todo m mem_cons_self
  have hrest : B.Moving s.vol done todo :=
    ⟨hM.record, hM.done, fun m' hm' => hM.todo m' (mem_cons_of_mem _ hm')⟩
  have hne : ∀ m', m' ∈ done ∨ m' ∈ todo → m'.slot ≠ m.slot := fun m' => B.slot_ne hitems
  unfold Sys.go at h
  rw [hpc] at h
  dsimp only at h
  cases hrole : m.role with
  | install =>
    have hnone : s.vol.live.dest m.slot = none := hfresh.live.1.trans (B.free m hmem hrole)
    rw [hrole] at h
    dsimp only at h
    rw [hnone, if_neg (by simp)] at h
    cases h
    refine ⟨⟨rfl, hc⟩, done, ⟨hitems, hrest.op (fun _ => rfl) fun m' hm' d => spot_place _
      (hne m' hm')⟩, ?_⟩
    refine hfresh.op (fun d b _ _ => .inl ⟨(dest_place ..).trans (if_pos rfl), fun e => ?_⟩)
      fun d b _ => .inr ⟨by simp, fun e => ?_⟩
    · rw [hrole] at e
      cases e
    · rw [hrole] at e
      cases e
  | replace =>
    obtain ⟨t, ht⟩ := isSome_iff_exists.mp (B.present m hmem hrole)
    have hd : s.vol.live.dest m.slot = some t := hfresh.live.1.trans ht
    have hp : s.vol.live.parked m.slot = none := hfresh.live.2
    rw [hrole] at h
    dsimp only at h
    have hok : ((s.vol.live.dest m.slot).isNone || s.blocked m.slot) = false := by
      rw [Sys.blocked, hd, hp]
      rfl
    rw [hok, if_neg Bool.false_ne_true] at h
    cases h
    refine ⟨⟨rfl, hc⟩, done, ⟨hitems, hrest.op (fun d => record_park ..)
      fun m' hm' d => spot_park _ (hne m' hm')⟩, hrole, ?_⟩
    refine (hM.record.and hfresh).op (fun d b hd _ => .inl ⟨t, ht, ?_⟩)
      fun d b hd => .inr ⟨mem_cons_self, hd.2⟩
    exact parked_park_self _ (swap_of_swapping hd.1) (hd.2.1.trans ht)

/-- The next model to be restored. -/
theorem Holds.restore
    (hpc : s.pc = .restoring back t (x :: todo) failed) (hh : B.Holds s) (h : s.go = some s') :
    B.Holds s' := by
  unfold Holds at hh
  rw [hpc] at hh
  obtain ⟨⟨rfl, hc⟩, rfl, hR⟩ := hh
  obtain ⟨m, hm, hrole, rfl⟩ := B.mem_only.mp (hR.sub mem_cons_self)
  unfold Sys.go at h
  rw [hpc] at h
  dsimp only at h
  split at h
  · rename_i hp
    cases h
    exact ⟨⟨rfl, hc⟩, rfl, hR.skip hm hrole hp⟩
  · rename_i c hp
    -- the predecessor is under `.swap` in every image
    have hheld : s.vol.All fun d _ => B.Held m (d.spot m.slot) := by
      refine (hR.replaced m hm hrole).resolve_left fun hf => ?_
      have hn : s.vol.live.parked m.slot = none := hf.live.2
      rw [show s.vol.live.parked m.slot = some c from hp] at hn
      cases hn
    split at h
    · cases h
      exact ⟨⟨rfl, hc⟩, rfl, m, hm, ⟨hrole, rfl⟩, hR.op_held hm hrole mem_cons_self hheld
        (fun _ => rfl) (fun _ => rfl) fun y hy d => spot_retire hy⟩
    · cases h
      exact ⟨⟨rfl, hc⟩, rfl, m, hm, ⟨hrole, rfl⟩, hR.unpark hm hrole hheld rfl⟩

/-- The next fresh install to be removed. -/
theorem Holds.remove
    (hpc : s.pc = .removing back t (x :: todo) failed) (hh : B.Holds s) (h : s.go = some s') :
    B.Holds s' := by
  unfold Holds at hh
  rw [hpc] at hh
  obtain ⟨⟨rfl, hc⟩, rfl, hR⟩ := hh
  obtain ⟨m, hm, hrole, rfl⟩ := B.mem_only.mp (hR.sub mem_cons_self)
  unfold Sys.go at h
  rw [hpc] at h
  dsimp only at h
  split at h
  · rename_i hn
    cases h
    exact ⟨⟨rfl, hc⟩, rfl, hR.skip hm hrole hn⟩
  · cases h
    exact ⟨⟨rfl, hc⟩, rfl, ⟨m, hm, hrole, rfl⟩, hR.retire hm hrole⟩

/-- **The next call.** -/
theorem Holds.go (hh : B.Holds s) (h : s.go = some s') : B.Holds s' := by
  have hH := hh
  have hgo := h
  unfold Holds at hH
  unfold Sys.go at hgo
  generalize hpc : s.pc = pc at hH hgo
  cases pc with
  | moving t todo =>
    cases todo with
    | nil =>
      cases hgo
      obtain ⟨ht, done, hitems, hM⟩ := hH
      rw [append_nil] at hitems
      exact ⟨ht, hitems ▸ hM⟩
    | cons m todo => exact hh.move hpc h
  | restoring back t todo failed =>
    cases todo with
    | nil =>
      cases hgo
      obtain ⟨⟨rfl, hc⟩, rfl, hR⟩ := hH
      exact ⟨⟨rfl, hc⟩, rfl, hR.removing⟩
    | cons x todo => exact hh.restore hpc h
  | removing back t todo failed =>
    cases todo with
    | nil =>
      cases hgo
      obtain ⟨ht, rfl, hR⟩ := hH
      exact ⟨ht, hR⟩
    | cons x todo => exact hh.remove hpc h
  | opening t items =>
    cases hgo
    refine ⟨hH.1, hH.2.fsync fun d b hd hb => ⟨hd.2 hb, ?_⟩⟩
    cases hd.1 with
    | undone hu => exact hu.2
    | other _ _ _ _ hback => exact hback
  | recording t items =>
    cases hgo
    obtain ⟨⟨rfl, hitems, hc⟩, hall⟩ := hH
    refine ⟨⟨rfl, hitems, hc⟩, hall.op (fun d b hd _ => ⟨⟨.inl ?_, fun x => ?_⟩, hd.2⟩)
      fun d b hd => ⟨⟨.inr ⟨hd.1.2.1, mem_cons_self⟩, hd.1.2.2⟩, hd.2⟩⟩
    · obtain ⟨w, hw⟩ := isSome_iff_exists.mp hd.1.1
      rw [Swapping, record_setRecord, hw]
      rfl
    · rw [parked_setRecord]
      exact hd.1.2.2 x
  | recorded t items =>
    cases hgo
    obtain ⟨⟨rfl, rfl, hc⟩, hall⟩ := hH
    exact ⟨⟨rfl, rfl, hc⟩, moving_start hall⟩
  | aside t m todo =>
    cases hgo
    obtain ⟨ht, done, ⟨hitems, hM⟩, hrole, hm⟩ := hH
    refine ⟨ht, done, ⟨hitems, hM.op (fun _ => rfl) fun m' hm' d => spot_place _
      (B.slot_ne hitems hm')⟩, ?_⟩
    refine hm.op (fun d b hd hb => .inl ⟨(dest_place ..).trans (if_pos rfl), fun _ => ?_⟩)
      fun d b hd => .inr ⟨by simp, fun _ => hd.symm.imp_left And.right⟩
    exact hd.resolve_right fun h' => hb _ (by simp) h'.1
  | placed t m todo =>
    cases hgo
    obtain ⟨ht, done, ⟨hitems, hM⟩, hm⟩ := hH
    refine ⟨ht, done ++ [m], by rw [hitems, append_assoc]; rfl, ?_⟩
    have hnext := hM.next hm
    split
    · exact (hnext.fsync _).fsync _
    · exact hnext.fsync _
  | proven t =>
    cases hgo
    obtain ⟨⟨rfl, hc⟩, hM⟩ := hH
    refine ⟨⟨rfl, hc⟩, hM.record.op (fun d b hd _ => .inl ?_) fun d b hd => .inr
      ⟨hd, mem_cons_self⟩,
      fun m hm => all_spot (hM.done m hm) fun d => spot_setRecord _⟩
    obtain ⟨w, hw⟩ := isSome_iff_exists.mp (swap_of_swapping hd)
    rw [Confirmed, record_setRecord, hw]
    rfl
  | confirming t =>
    cases hgo
    obtain ⟨-, hrec, hmoved⟩ := hH
    refine ⟨fun i hi => ?_, not_swapping (.inr (hrec.live.resolve_right
      fun h' => not_mem_nil h'.2))⟩
    obtain ⟨hi, hb⟩ := mem_filter.mp hi
    refine .done (.inr ((hrec i hi).resolve_right fun h' => of_decide_eq_true hb h'.2))
      fun m hm => ?_
    exact (hmoved m hm i hi).1
  | discarding back =>
    dsimp only at hgo
    split at hgo
    · cases hgo
      refine holds_after back rfl (hH.1.op (fun d b hd _ => ?_) fun d b hd => ?_) rfl
      · exact hd.mono rfl (.inl rfl) (fun _ _ => rfl) (List.Subset.refl _)
      · exact hd.mono rfl (.inr rfl) (fun _ h => h) (subset_append_right _ _)
    · cases hgo
  | retired back t x grave todo failed =>
    cases hgo
    obtain ⟨ht, hf, m, hm, ⟨hrole, rfl⟩, hR, hheld⟩ := hH
    exact ⟨ht, hf, m, hm, ⟨hrole, rfl⟩, hR.unpark hm hrole hheld rfl⟩
  | restored back t x todo failed =>
    cases hgo
    obtain ⟨ht, hf, m, hm, ⟨-, rfl⟩, hsub, hrec, hback, hinst, hothers⟩ := hH
    exact ⟨ht, hf, .next hm hsub hrec hback hinst hothers⟩
  | purging back t x grave todo failed =>
    cases hgo
    exact ⟨hH.1, hH.2.1, hH.2.2.2⟩
  | clearing back t =>
    dsimp only at hgo
    split at hgo
    · cases hgo
      refine ⟨hH.1.2, hH.2.1.op (fun d b hd _ => ⟨?_, .inr rfl⟩)
        fun d b hd => ⟨?_, .inl mem_cons_self⟩⟩
      · exact hd.mono rfl (.inl rfl) (fun _ _ => rfl) (List.Subset.refl _)
      · exact hd.mono rfl (.inr rfl) (fun _ h => h) (subset_append_right _ _)
    · cases hgo
  | cleared back =>
    cases hgo
    obtain ⟨hc, hall⟩ := hH
    have hnone : (s.vol.fsync .models).All fun d b => B.Undone d b ∧ d.swap = none :=
      hall.fsync fun d b hd hb => ⟨hd.1, hd.2.resolve_left hb⟩
    refine holds_after back rfl (hnone.mono fun d b hd => ?_) hnone.live.2
    rw [show ({ s with vol := s.vol.fsync .models, pc := .after back } : Sys F).confirmed =
      false from hc]
    exact .undone hd.1
  | idle | ready | quiescing | loading | settling | reloading => cases hgo

/-- **An answer of the engine.** -/
theorem Holds.engine (hh : B.Holds s) {ok : Bool} (h : s.engine ok = some s') : B.Holds s' := by
  unfold Sys.engine at h
  unfold Holds at hh
  generalize s.pc = pc at h hh
  split at h
  · cases h
    obtain ⟨⟨rfl, rfl, hc⟩, hM⟩ := hh
    cases ok with
    | false => exact .inl ⟨hc, hM.atRest rfl⟩
    | true => exact ⟨⟨rfl, hc⟩, [], rfl, hM⟩
  · cases h
    cases ok with
    | false => exact ⟨hh.1, hh.2.atRest (append_nil _).symm⟩
    | true => exact hh
  · cases h
    obtain ⟨⟨rfl, hc⟩, hA⟩ := hh
    cases ok with
    | false => exact .inl ⟨hc, hA⟩
    | true =>
      refine ⟨⟨rfl, hc⟩, rfl, hA, List.Subset.refl _, fun m hm hrole hout => ?_⟩
      exact absurd (B.mem_only.mpr ⟨m, hm, hrole, rfl⟩) hout
  · cases h
    cases ok with
    | false => exact .inl ⟨hh.1.2, hh.2.atRest⟩
    | true => exact ⟨hh.1, hh.2.undone, .inr hh.2.record⟩
  · cases h

theorem Holds.recover (hh : B.Holds s) (hpc : s.pc = .idle) : B.Holds s.recover := by
  unfold Holds at hh
  rw [hpc] at hh
  unfold Sys.recover
  rcases hh with ⟨hc, hA⟩ | ⟨hQ, hno⟩
  · -- the record of the batch
    rw [show s.vol.live.record = some (B.t.record .swapping) from hA.record.live]
    exact ⟨⟨rfl, hc⟩, hA⟩
  · split
    · rename_i hr
      cases hw : s.vol.live.swap with
      | none => exact ⟨hQ, hw⟩
      | some w => exact ⟨hQ, hno⟩
    · exact ⟨hQ, hno⟩
    · -- another record is a confirmed one
      rename_i models txn hr
      have hlive := hQ.live
      generalize s.confirmed = c at hlive
      cases hlive with
      | undone h0 =>
        rcases h0.1 with h0 | h0
        · rw [hr] at h0
          cases h0
        · exact absurd h0.1 hno
      | other r h0 hp _ _ =>
        rw [hr] at h0
        cases h0
        cases hp
      | done h0 _ =>
        rcases h0 with h0 | h0
        · rw [hr] at h0
          cases h0
        · rw [Confirmed, hr] at h0
          cases h0

/-- Parts of `remove_dir_all(.swap)`. -/
theorem Holds.sweep (hh : B.Holds s) (hs : s.sweeping = true) {dirs : List Dir}
    {f : Disk F → Disk F} (hd : ∀ d, (f d).dest = d.dest)
    (hr : (∀ d, (f d).record = none) ∨ ∀ d, (f d).record = d.record)
    (hp : ∀ d x, d.parked x = none → (f d).parked x = none) :
    B.Holds { s with vol := s.vol.op dirs f } := by
  have hr' : ∀ d, (f d).record = none ∨ (f d).record = d.record :=
    fun d => hr.imp (fun h => h d) fun h => h d
  unfold Sys.sweeping at hs
  unfold Holds at hh ⊢
  split at hs
  · rename_i hpc
    rw [hpc] at hh ⊢
    refine ⟨hh.1.op (fun d b h _ => h.mono (hd d) (hr' d) (hp d) (List.Subset.refl _))
      fun d b h => h.mono rfl (.inr rfl) (fun _ h => h) (subset_append_right _ _),
        fun hsw => hh.2 ?_⟩
    exact ((hr' _).resolve_left fun hn => by cases hn.symm.trans hsw).symm.trans hsw
  · rename_i hpc
    rw [hpc] at hh ⊢
    refine ⟨hh.1, hh.2.1.op (fun d b h _ => h.mono (hd d) (hr' d) (hp d) (List.Subset.refl _))
      fun d b h => h.mono rfl (.inr rfl) (fun _ h => h) (subset_append_right _ _), ?_⟩
    rcases hr with hr | hr
    · exact .inl (hr _)
    · exact hh.2.2.imp (fun h => (hr _).trans h) fun h => all_record h hr
  · cases hs

/-- Parts of `remove_dir_all` of a retired directory. -/
theorem Holds.purge [DecidableEq F] (hh : B.Holds s) {g : Slot × List F} (hg : s.grave = some g)
    (keep : F → Bool) : B.Holds { s with vol := s.vol.op [] (purge g.1 g.2 keep) } := by
  unfold Sys.grave at hg
  unfold Holds at hh ⊢
  split at hg
  · rename_i hpc
    rw [hpc] at hh ⊢
    cases hg
    obtain ⟨ht, hf, m, hm, ⟨hrole, rfl⟩, hR, hheld⟩ := hh
    exact ⟨ht, hf, m, hm, ⟨hrole, rfl⟩, hR.op_held hm hrole mem_cons_self hheld
      (fun d => record_purge ..) (fun d => parked_purge ..) fun y hy d => spot_purge _ _ hy⟩
  · rename_i hpc
    rw [hpc] at hh ⊢
    cases hg
    obtain ⟨ht, hf, ⟨m, hm, hrole, rfl⟩, hR⟩ := hh
    exact ⟨ht, hf, ⟨m, hm, hrole, rfl⟩, hR.purge hm hrole _ _⟩
  · cases hg

end Batch

/-! ## 2. Runs -/

section Runs

variable {F : Type} {B : Batch F} {s s' : Sys F}

/-- The run of one batch, in which calls succeed. -/
def Act.succeeds : Act F → Bool
  | .fail _ => false
  | .begin _ => false
  | .edit _ _ => false
  | _ => true

def Act.isKill : Act F → Bool
  | .kill => true
  | _ => false

/-- What is asked of the run: a crash that leaves no record has lost no change of a backend
    directory, and no process is killed between a rename and its sync. -/
def Sys.lasting (s : Sys F) : Act F → Bool
  | .crash k =>
    s.vol.images[k]?.all fun i => i.disk.record.isSome || !i.behind.any Dir.isBackend
  | .kill => s.settled
  | a => a.succeeds

/-- A batch can begin: nothing is under `.swap`, and its destinations are as they are in every
    image. -/
structure Batch.Begins (B : Batch F) (s : Sys F) : Prop where
  ready : s.pc = .ready
  txn : s.last + 1 = B.txn
  empty : s.vol.live.swap = none
  swap : s.vol.All fun d b => .models ∉ b → d.swap = none
  record : s.vol.All fun d _ => ∀ r, d.record = some r → r.phase = .confirmed ∧ r.txn ≠ B.txn
  dest : ∀ m ∈ B.items, s.vol.All fun d _ => d.dest m.slot = B.before m.slot

theorem Batch.Begins.holds (h : B.Begins s) :
    B.Holds (s.begin B.items) ∧ (s.begin B.items).last = B.txn := by
  have hrec : s.vol.live.record = none := by
    rw [Disk.record, h.empty]
    rfl
  have hbegin : s.begin B.items = ⟨s.vol.op [.models] mkSwap, .opening B.t B.items, B.txn,
      false⟩ := by
    rw [Sys.begin, hrec, h.empty, h.txn]
    rfl
  rw [hbegin]
  refine ⟨⟨⟨rfl, rfl, rfl⟩, fun i hi => ?_⟩, rfl⟩
  obtain ⟨j, hj, hij⟩ := mem_flatMap.mp hi
  have hback : B.Back j.disk [] := fun m hm =>
    ⟨fun _ => h.dest m hm j hj, fun hrole => .inl ((h.dest m hm j hj).trans (B.free m hm hrole))⟩
  have hquiet : B.Quiet false j.disk [] := by
    cases hr : j.disk.record with
    | none => exact .undone ⟨.inl hr, hback⟩
    | some r => exact .other r hr (h.record j hj r hr).1 (h.record j hj r hr).2 hback
  rcases Image.mem_after.mp hij with rfl | ⟨hb, rfl⟩
  · exact ⟨hquiet, fun hm => absurd mem_cons_self hm⟩
  · have hnone := h.swap j hj (hb _ mem_cons_self)
    refine ⟨hquiet.mono rfl (.inr (record_mkSwap _)) (fun x hx => (parked_mkSwap ..).trans hx)
      (List.Subset.refl _), fun _ => ⟨rfl, ?_, fun x => ?_⟩⟩
    · rw [record_mkSwap, Disk.record, hnone]
      rfl
    · rw [parked_mkSwap, parked, hnone]
      rfl

theorem last_go (h : s.go = some s') : s'.last = s.last := by
  unfold Sys.go at h
  repeat' split at h
  all_goals first | (cases h; rfl) | cases h

theorem last_engine {ok : Bool} (h : s.engine ok = some s') : s'.last = s.last := by
  unfold Sys.engine at h
  split at h <;> first | (cases h; rfl) | cases h

theorem last_recover (s : Sys F) : s.recover.last = s.last := by
  unfold Sys.recover
  split <;> rfl

/-- **A step**, if it is a lasting one. -/
theorem Batch.Holds.step [DecidableEq F] (hh : B.Holds s ∧ s.last = B.txn) {a : Act F}
    (hl : s.lasting a = true) (h : s.step a = some s') : B.Holds s' ∧ s'.last = B.txn := by
  obtain ⟨hh, ht⟩ := hh
  cases a with
  | recover =>
    simp only [Sys.step] at h
    split at h
    · rename_i hpc
      cases h
      exact ⟨hh.recover hpc, (last_recover s).trans ht⟩
    · cases h
  | begin | edit => cases hl
  | finish =>
    simp only [Sys.step] at h
    split at h
    · rename_i hpc
      cases h
      exact ⟨hh.killed (by rw [Sys.settled, hpc]), ht⟩
    · cases h
  | go => exact ⟨hh.go h, (last_go h).trans ht⟩
  | fail undone => cases hl
  | engine ok => exact ⟨hh.engine h, (last_engine h).trans ht⟩
  | purge keep =>
    simp only [Sys.step] at h
    obtain ⟨g, hg, rfl⟩ := map_eq_some_iff.mp h
    exact ⟨hh.purge hg keep, ht⟩
  | dropRecord =>
    obtain ⟨hs, rfl⟩ := guarded h
    refine ⟨hh.sweep hs (fun _ => rfl) (.inl record_dropRecord) fun d x hx => ?_, ht⟩
    exact (parked_dropRecord ..).trans hx
  | shrink x keep =>
    obtain ⟨hs, rfl⟩ := guarded h
    refine ⟨hh.sweep hs (fun _ => rfl) (.inr fun d => record_shrink ..) fun d y hy => ?_, ht⟩
    simp [hy]
  | drop x =>
    obtain ⟨⟨hs, -⟩, rfl⟩ := guarded h
    refine ⟨hh.sweep hs (fun _ => rfl) (.inr fun d => record_drop ..) fun d y hy => ?_, ht⟩
    simp [hy]
  | crash k =>
    simp only [Sys.step] at h
    obtain ⟨v, hv, rfl⟩ := map_eq_some_iff.mp h
    obtain ⟨i, hi, rfl⟩ := map_eq_some_iff.mp hv
    refine ⟨hh.crashed ht (mem_of_getElem? hi) fun hr x hx => ?_, ht⟩
    -- without a record the crash has lost nothing of a backend directory
    simp only [Sys.lasting, hi, hr, all_some, isSome_none, Bool.false_or,
      Bool.not_eq_true', List.any_eq_false] at hl
    exact hl _ hx rfl
  | kill =>
    cases h
    exact ⟨hh.killed hl, ht⟩

/-- All destinations as before, or all new. -/
def Batch.Whole (B : Batch F) (s : Sys F) : Prop :=
  (s.confirmed = false ∧ ∀ m ∈ B.items, s.vol.live.dest m.slot = B.before m.slot) ∨
    (s.confirmed = true ∧ ∀ m ∈ B.items, s.vol.live.dest m.slot = some m.staged)

theorem not_whole {m : Item F} (hc : s.confirmed = false) (hm : m ∈ B.items)
    (hd : s.vol.live.dest m.slot ≠ B.before m.slot) : ¬ B.Whole s := by
  intro hw
  rcases hw with ⟨-, hw⟩ | ⟨hc', -⟩
  · exact hd (hw m hm)
  · rw [hc] at hc'
    cases hc'

theorem Batch.Quiet.whole (h : B.Quiet s.confirmed s.vol.live []) : B.Whole s := by
  have hback : B.Back s.vol.live [] → ∀ m ∈ B.items, s.vol.live.dest m.slot = B.before m.slot := by
    intro hb m hm
    cases hrole : m.role with
    | replace => exact (hb m hm).1 hrole
    | install =>
      exact (((hb m hm).2 hrole).resolve_right not_mem_nil).trans (B.free m hm hrole).symm
  unfold Batch.Whole
  generalize s.confirmed = c at h ⊢
  cases h with
  | undone hu => exact .inl ⟨rfl, hback hu.2⟩
  | other _ _ _ _ hb => exact .inl ⟨rfl, hback hb⟩
  | done _ hl => exact .inr ⟨rfl, hl⟩

/-- **A batch is whole after every recovery**, in every run of lasting steps. Recovering once more
    changes nothing, and until its record is confirmed on disk no image has lost a predecessor. -/
theorem batch_whole [DecidableEq F] {s₀ : Sys F} (hB : B.Begins s₀)
    (h : Reach Sys.step (fun s a => s.lasting a = true) (s₀.begin B.items) s) :
    (s.pc = .ready → B.Whole s ∧ (s.step .finish).bind (fun s' => s'.step .recover) = some s) ∧
      (s.confirmed = false → ∀ m ∈ B.items, m.role = .replace →
        s.vol.All fun d _ => B.Kept m d) := by
  obtain ⟨hh, -⟩ : B.Holds s ∧ s.last = B.txn :=
    h.invariant hB.holds fun _ _ _ hh hl hs => Batch.Holds.step hh hl hs
  refine ⟨fun hpc => ?_, fun hc m hm hrole => ?_⟩
  · unfold Batch.Holds at hh
    rw [hpc] at hh
    refine ⟨Batch.Quiet.whole hh.1.live, ?_⟩
    have hrec : s.vol.live.record = none := by
      rw [Disk.record, hh.2]
      rfl
    obtain ⟨vol, pc, last, confirmed⟩ := s
    cases hpc
    simp only [Sys.step, bind_some, Sys.recover]
    rw [show vol.live.record = none from hrec, show vol.live.swap = none from hh.2]
    rfl
  · have hsafe := hh.safe
    rw [hc] at hsafe
    exact hsafe.mono fun d b hd => hd.kept hm hrole

end Runs

/-! ## 3. Two batches -/

/-- A replacement, of the file `1` by `2`, and a fresh install. -/
def mixedBatch : Batch Nat where
  items := [⟨⟨['o'], ['m']⟩, .replace, [2]⟩, ⟨⟨['o'], ['n']⟩, .install, [3]⟩]
  txn := 1
  before := fun x => if x = ⟨['o'], ['m']⟩ then some [1] else none
  nodup := by decide
  present := by decide
  free := by decide

/-- Both are in their places when the machine goes down; the recovery is killed after it has retired
    the replacement, and the next one ends. -/
def mixedRun : List (Act Nat) :=
  [.go, .go, .go, .engine true, .go, .go, .go, .go, .crash 0, .recover, .engine true, .go,
    .purge fun _ => false, .kill, .recover, .engine true, .go, .go, .go, .go, .purge fun _ => false,
    .go, .go, .engine true, .dropRecord, .go, .go]

/-- A root in which everything is on disk. -/
theorem begins_start (B : Batch Nat) (ht : B.txn = 1) : B.Begins (Sys.start B.before).recover where
  ready := rfl
  txn := ht.symm
  empty := rfl
  swap := Volume.all_clean fun _ => rfl
  record := Volume.all_clean fun _ h => (by cases h)
  dest := fun _ _ => Volume.all_clean rfl

theorem mixedRun_whole :
    mixedBatch.Begins (Sys.start mixedBatch.before).recover ∧
    ∃ s, Reach Sys.step (fun s a => s.lasting a = true)
        ((Sys.start mixedBatch.before).recover.begin mixedBatch.items) s ∧
      s.pc = .ready ∧ s.confirmed = false ∧ mixedBatch.Whole s := by
  have hB := begins_start mixedBatch rfl
  have hrun : (runWhile Sys.step (fun s a => s.lasting a = true)
      ((Sys.start mixedBatch.before).recover.begin mixedBatch.items) mixedRun).any (fun s =>
        decide (s.pc = .ready) && !s.confirmed) = true := by decide +kernel
  obtain ⟨s, hs, hp⟩ := Reach.exists_of_runWhile hrun
  obtain ⟨hpc, hc⟩ := Bool.and_eq_true_iff.mp hp
  have hpc := of_decide_eq_true hpc
  exact ⟨hB, s, hs, hpc, (Bool.not_eq_true' _).mp hc, ((batch_whole hB hs).1 hpc).1⟩

/-- One fresh install. -/
def freshBatch : Batch Nat where
  items := [⟨⟨['o'], ['n']⟩, .install, [3]⟩]
  txn := 1
  before := fun _ => none
  nodup := by decide
  present := by decide
  free := by decide

/-- The machine goes down after the install, the recovery removes it and its record, and the next
    crash has lost the rename into the trash. The next recovery finds nothing to do. -/
theorem install_returns :
    ∃ s, Reach Sys.step (fun _ a => a.succeeds = true)
        ((Sys.start freshBatch.before).recover.begin freshBatch.items) s ∧
      s.pc = .ready ∧ ¬ freshBatch.Whole s := by
  have hrun : (runWhile Sys.step (fun _ a => a.succeeds = true)
      ((Sys.start freshBatch.before).recover.begin freshBatch.items)
      [.go, .go, .go, .engine true, .go, .crash 0, .recover, .engine true, .go, .go, .go, .go,
        .engine true, .dropRecord, .go, .go, .crash 2, .recover]).any (fun s =>
        decide (s.pc = .ready ∧ s.confirmed = false ∧ s.vol.live.dest ⟨['o'], ['n']⟩ = some [3])) =
          true := by decide +kernel
  obtain ⟨s, hs, hp⟩ := Reach.exists_of_runWhile hrun
  obtain ⟨hpc, hc, hd⟩ := of_decide_eq_true hp
  exact ⟨s, hs, hpc, not_whole hc mem_cons_self (by rw [hd]; decide)⟩

/-- One replacement, of the file `1` by `2`. -/
def upgradeBatch : Batch Nat where
  items := [⟨⟨['o'], ['m']⟩, .replace, [2]⟩]
  txn := 1
  before := fun x => if x = ⟨['o'], ['m']⟩ then some [1] else none
  nodup := by decide
  present := by decide
  free := by decide

/-- The process is killed when it has renamed the confirmed record into place. The next command
    deletes the file of the predecessor, and a crash brings the record `swapping` back: what is
    restored is empty. -/
theorem confirm_lost :
    ∃ s, Reach Sys.step (fun s a => (a.isKill || s.lasting a) = true)
        ((Sys.start upgradeBatch.before).recover.begin upgradeBatch.items) s ∧
      s.pc = .ready ∧ ¬ upgradeBatch.Whole s := by
  have hrun : (runWhile Sys.step (fun s a => (a.isKill || s.lasting a) = true)
      ((Sys.start upgradeBatch.before).recover.begin upgradeBatch.items)
      [.go, .go, .go, .engine true, .go, .go, .go, .go, .engine true, .go, .kill, .recover,
        .shrink ⟨['o'], ['m']⟩ fun _ => false, .crash 2, .recover, .engine true, .go, .go,
          .go, .go, .go,
        .engine true, .dropRecord, .go, .go]).any (fun s =>
        decide (s.pc = .ready ∧ s.confirmed = false ∧ s.vol.live.dest ⟨['o'], ['m']⟩ = some [])) =
          true := by decide +kernel
  obtain ⟨s, hs, hp⟩ := Reach.exists_of_runWhile hrun
  obtain ⟨hpc, hc, hd⟩ := of_decide_eq_true hp
  exact ⟨s, hs, hpc, not_whole hc mem_cons_self (by rw [hd]; decide)⟩

/-- Calls succeed, and a recovery ends with a batch that is neither undone nor done: by a crash that
    leaves no record, and by a kill. -/
theorem recoveries_fail :
    (freshBatch.Begins (Sys.start freshBatch.before).recover ∧
      ∃ s, Reach Sys.step (fun _ a => a.succeeds = true)
          ((Sys.start freshBatch.before).recover.begin freshBatch.items) s ∧
        s.pc = .ready ∧ ¬ freshBatch.Whole s) ∧
    upgradeBatch.Begins (Sys.start upgradeBatch.before).recover ∧
      ∃ s, Reach Sys.step (fun s a => (a.isKill || s.lasting a) = true)
          ((Sys.start upgradeBatch.before).recover.begin upgradeBatch.items) s ∧
        s.pc = .ready ∧ ¬ upgradeBatch.Whole s :=
  ⟨⟨begins_start freshBatch rfl, install_returns⟩, begins_start upgradeBatch rfl, confirm_lost⟩

end Postvec.Registry.Swap
