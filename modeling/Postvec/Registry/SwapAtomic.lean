import Postvec.Registry.Swap

/-!
# A batch is applied as a whole or not at all

One batch, from its `begin_swap` on, through any number of crashes and recoveries; calls to the
filesystem succeed. An image that a crash may leave is of one of a few kinds (`Safe`):

* nothing is recorded, and every destination is as before (or, once confirmed, new);
* the record says `swapping`, and each predecessor is at its destination or under `.swap`;
* the record says `confirmed`, and every destination is new.

The order of the calls and syncs is what keeps every image in one of them (`Batch.Holds`), with one
gap: `remove_recorded_installs` moves a fresh install into the trash and does not sync the backend
directory, so that after the record has been cleared a crash may bring the install back
(`Batch.Gone`).
-/

namespace Postvec.Registry.Swap

open Machine List Disk

variable {F : Type}

/-! ## 1. A batch and its images -/

structure Batch (F : Type) where
  items : List (Item F)
  txn : Nat
  /-- the destinations when it began -/
  before : Slot → Option (List F)
  nodup : (items.map Item.slot).Nodup
  present : ∀ m ∈ items, m.role = .replace → (before m.slot).isSome = true
  free : ∀ m ∈ items, m.role = .install → before m.slot = none

/-- What there is of a model: its destination and its copy under `.swap`. -/
def Disk.spot (d : Disk F) (x : Slot) : Option (List F) × Option (Copy F) := (d.dest x, d.parked x)

namespace Batch

variable (B : Batch F) {m m' : Item F} {d : Disk F}

def t : Txn := ⟨B.items.map Item.model, B.txn⟩

def Swapping (d : Disk F) : Prop := d.record = some (B.t.record .swapping)

def Confirmed (d : Disk F) : Prop := d.record = some (B.t.record .confirmed)

/-- The model is as before. -/
def Fresh (m : Item F) (p : Option (List F) × Option (Copy F)) : Prop :=
  p.1 = B.before m.slot ∧ p.2 = none

/-- The predecessor is under `.swap`. -/
def Held (m : Item F) (p : Option (List F) × Option (Copy F)) : Prop :=
  ∃ t, B.before m.slot = some t ∧ p.2 = some ⟨B.txn, t⟩

/-- The new directory is in its place. -/
def Moved (m : Item F) (p : Option (List F) × Option (Copy F)) : Prop :=
  p.1 = some m.staged ∧ (m.role = .replace → B.Held m p)

def Landed (d : Disk F) : Prop := ∀ m ∈ B.items, d.dest m.slot = some m.staged

/-- The destination is empty, or the image has lost changes of its directory. -/
def Gone (m : Item F) (d : Disk F) (b : List Dir) : Prop :=
  d.dest m.slot = none ∨ Dir.backend m.slot.backend ∈ b

/-- Everything is as before. -/
def Back (d : Disk F) (b : List Dir) : Prop :=
  ∀ m ∈ B.items, (m.role = .replace → d.dest m.slot = B.before m.slot) ∧
    (m.role = .install → Gone m d b)

/-- A rollback is done, and its record may be gone. -/
def Undone (d : Disk F) (b : List Dir) : Prop :=
  (d.record = none ∨ B.Swapping d ∧ ∀ m ∈ B.items, m.role = .replace → d.parked m.slot = none) ∧
    B.Back d b

/-- The images between batches. -/
inductive Quiet : Bool → Disk F → List Dir → Prop where
  | undone {d : Disk F} {b : List Dir} (h : B.Undone d b) : Quiet false d b
  /-- `.swap` of an earlier batch -/
  | other {d : Disk F} {b : List Dir} (r : SwapRecord) (hr : d.record = some r)
      (hp : r.phase = .confirmed) (ht : r.txn ≠ B.txn) (h : B.Back d []) : Quiet false d b
  | done {d : Disk F} {b : List Dir} (hr : d.record = none ∨ B.Confirmed d) (h : B.Landed d) :
      Quiet true d b

/-- **The images of a batch.** -/
inductive Safe : Bool → Disk F → List Dir → Prop where
  | quiet {c : Bool} {d : Disk F} {b : List Dir} (h : B.Quiet c d b) : Safe c d b
  | swapping {d : Disk F} {b : List Dir} (hr : B.Swapping d)
      (h : ∀ m ∈ B.items, m.role = .replace →
        B.Fresh m (d.spot m.slot) ∨ B.Held m (d.spot m.slot)) : Safe false d b
  | confirmed {d : Disk F} {b : List Dir} (hr : B.Confirmed d) (h : B.Landed d)
      (hh : ∀ m ∈ B.items, m.role = .replace → B.Held m (d.spot m.slot)) : Safe false d b

/-- The predecessor is complete, at its destination or under `.swap`. -/
def Kept (m : Item F) (d : Disk F) : Prop :=
  d.dest m.slot = B.before m.slot ∨ d.parked m.slot = (B.before m.slot).map fun t => ⟨B.txn, t⟩

theorem Held.kept {B : Batch F} (h : B.Held m (d.spot m.slot)) :
    B.Kept m d := by
  obtain ⟨t, ht, hp⟩ := h
  right
  rw [ht]
  exact hp

theorem Safe.kept {B : Batch F} {b : List Dir} (h : B.Safe false d b)
    (hm : m ∈ B.items) (hr : m.role = .replace) : B.Kept m d := by
  cases h with
  | quiet h =>
    cases h with
    | undone h => exact .inl ((h.2 m hm).1 hr)
    | other _ _ _ _ h => exact .inl ((h m hm).1 hr)
  | swapping _ h =>
    rcases h m hm hr with hf | hh
    · exact .inl hf.1
    · exact hh.kept
  | confirmed _ _ hh => exact (hh m hm hr).kept

theorem eq_of_slot (hm : m ∈ B.items) (hm' : m' ∈ B.items) (h : m.slot = m'.slot) :
    m = m' := inj_on_of_nodup_map B.nodup hm hm' h

/-- In the list of items the others have other slots. -/
theorem slot_ne {done todo : List (Item F)} (h : B.items = done ++ m :: todo)
    (hm' : m' ∈ done ∨ m' ∈ todo) : m'.slot ≠ m.slot := by
  have hnd := B.nodup
  rw [h, map_append, map_cons, nodup_append] at hnd
  obtain ⟨-, hcons, hdisj⟩ := hnd
  rcases hm' with hm' | hm'
  · exact hdisj _ (mem_map_of_mem hm') _ mem_cons_self
  · intro e
    exact (nodup_cons.mp hcons).1 (e ▸ mem_map_of_mem hm')

theorem mem_only {x : SwapModel} {role : SwapRole} : x ∈ B.t.only role ↔
    ∃ m ∈ B.items, m.role = role ∧ m.model = x := by
  rw [Txn.only, mem_filter]
  show x ∈ B.items.map Item.model ∧ _ ↔ _
  rw [mem_map]
  constructor
  · intro ⟨⟨m, hm, e⟩, hr⟩
    subst e
    exact ⟨m, hm, of_decide_eq_true hr, rfl⟩
  · intro ⟨m, hm, hr, e⟩
    subst e
    exact ⟨⟨m, hm, rfl⟩, decide_eq_true hr⟩

end Batch

/-! ## 2. Operations elsewhere -/

section Spots

variable {d : Disk F} {x y : Slot} {v : Volume (Disk F) Dir} {dirs : List Dir} {f : Disk F → Disk F}
  {m : Item F}

theorem spot_place (t : List F) (h : y ≠ x) : (d.place x t).spot y = d.spot y := by
  simp [spot, h]

theorem spot_retire (h : y ≠ x) : (d.retire x).spot y = d.spot y := by
  simp [spot, h]

theorem spot_park (k : Nat) (h : y ≠ x) : (d.park k x).spot y = d.spot y := by
  simp [spot, dest_park_of_ne _ _ h, parked_park_of_ne _ _ h]

theorem spot_unpark (h : y ≠ x) : (d.unpark x).spot y = d.spot y := by
  simp [spot, dest_unpark_of_ne _ h, h]

theorem spot_purge [DecidableEq F] (t : List F) (keep : F → Bool) (h : y ≠ x) :
    (d.purge x t keep).spot y = d.spot y := by
  simp [spot, dest_purge_of_ne _ _ _ h]

theorem spot_setRecord (r : SwapRecord) : (d.setRecord r).spot y = d.spot y := by
  simp [spot]

/-- What is known of a model everywhere stays known, if the operation is elsewhere. -/
theorem all_spot {P : Option (List F) × Option (Copy F) → Prop} (h : v.All fun d _ => P (d.spot y))
    (hf : ∀ d, (f d).spot y = d.spot y) : (v.op dirs f).All fun d _ => P (d.spot y) :=
  h.keep fun d hp => by rw [hf]; exact hp

/-- Where an image is up to date on the directory, there is a destination if there is one now. -/
def Agrees (x : Slot) (v : Volume (Disk F) Dir) : Prop :=
  v.All fun d b => Dir.backend x.backend ∈ b ∨ (d.dest x).isSome = (v.live.dest x).isSome

theorem Agrees.op (h : Agrees y v) (hf : ∀ d, (f d).spot y = d.spot y) :
    Agrees y (v.op dirs f) := by
  have hd : ∀ d, (f d).dest y = d.dest y := fun d => congrArg Prod.fst (hf d)
  refine Volume.All.op h (fun d b h _ => ?_) fun d b h => ?_
  · rw [Volume.live_op, hd, hd]
    exact h
  · rw [Volume.live_op, hd]
    exact h.imp_left (mem_append_right _)

theorem Agrees.fsync (h : Agrees y v) (d : Dir) : Agrees y (v.fsync d) := Volume.All.sync h

theorem agrees_clean (d : Disk F) : Agrees y (Volume.clean d : Volume (Disk F) Dir) :=
  Volume.all_clean (.inr rfl)

theorem Agrees.gone (h : Agrees m.slot v) (hn : v.live.dest m.slot = none) :
    v.All (Batch.Gone m) := by
  refine h.mono fun d b h => ?_
  rcases h with h | h
  · exact .inr h
  · rw [hn] at h
    exact .inl (Option.not_isSome_iff_eq_none.mp (Bool.eq_false_iff.mp h))

theorem gone_op (h : v.All (Batch.Gone m)) (hf : ∀ d, (f d).spot m.slot = d.spot m.slot) :
    (v.op dirs f).All (Batch.Gone m) := by
  refine h.op (fun d b h _ => ?_) fun d b h => h.imp_right (mem_append_right _)
  have hd : (f d).dest m.slot = d.dest m.slot := congrArg Prod.fst (hf d)
  rw [Batch.Gone, hd]
  exact h

theorem all_record {B : Batch F} (h : v.All fun d _ => B.Swapping d)
    (hf : ∀ d, (f d).record = d.record) : (v.op dirs f).All fun d _ => B.Swapping d :=
  h.keep fun d hp => (hf d).trans hp

end Spots

/-- The last rename of the record, of a predecessor or of a new directory has been synced. -/
def Sys.settled (s : Sys F) : Bool :=
  match s.pc with
  | .recorded _ _ => false
  | .aside _ _ _ => false
  | .placed _ _ _ => false
  | .confirming _ => false
  | .restored _ _ _ _ _ => false
  | _ => true

/-! ## 3. What holds where -/

namespace Batch

variable (B : Batch F)

/-- Under the record `swapping`, before a rollback. -/
structure AtRest (v : Volume (Disk F) Dir) : Prop where
  record : v.All fun d _ => B.Swapping d
  replaced : ∀ m ∈ B.items, m.role = .replace →
    (v.All fun d _ => B.Fresh m (d.spot m.slot)) ∨ v.All fun d _ => B.Held m (d.spot m.slot)
  installed : ∀ m ∈ B.items, m.role = .install → Agrees m.slot v

/-- Some items are in their places, the others not yet begun. -/
structure Moving (v : Volume (Disk F) Dir) (done todo : List (Item F)) : Prop where
  record : v.All fun d _ => B.Swapping d
  done : ∀ m ∈ done, v.All fun d _ => B.Moved m (d.spot m.slot)
  todo : ∀ m ∈ todo, v.All fun d _ => B.Fresh m (d.spot m.slot)

/-- A rollback has still `todo` to restore. -/
structure Restoring (v : Volume (Disk F) Dir) (todo : List SwapModel) :
    Prop extends B.AtRest v where
  sub : todo ⊆ B.t.replaced
  fresh : ∀ m ∈ B.items, m.role = .replace → m.model ∉ todo →
    v.All fun d _ => B.Fresh m (d.spot m.slot)

/-- A rollback has still the fresh installs `todo` to remove. -/
structure Removing (v : Volume (Disk F) Dir) (todo : List SwapModel) : Prop where
  record : v.All fun d _ => B.Swapping d
  replaced : ∀ m ∈ B.items, m.role = .replace → v.All fun d _ => B.Fresh m (d.spot m.slot)
  installed : ∀ m ∈ B.items, m.role = .install → Agrees m.slot v
  sub : todo ⊆ B.t.installed
  gone : ∀ m ∈ B.items, m.role = .install → m.model ∉ todo → v.All (Gone m)

/-- **What holds where a command has come to.** -/
def Holds (s : Sys F) : Prop :=
  match s.pc with
  | .idle => s.confirmed = false ∧ B.AtRest s.vol ∨
      s.vol.All (B.Quiet s.confirmed) ∧ ¬ B.Swapping s.vol.live
  | .ready => s.vol.All (B.Quiet s.confirmed) ∧ s.vol.live.swap = none
  | .opening t items => (t = B.t ∧ items = B.items ∧ s.confirmed = false) ∧
      s.vol.All fun d b => B.Quiet false d [] ∧
        (.models ∉ b → d.swap.isSome = true ∧ d.record = none ∧ ∀ x, d.parked x = none)
  | .recording t items => (t = B.t ∧ items = B.items ∧ s.confirmed = false) ∧
      s.vol.All fun d _ => (d.swap.isSome = true ∧ d.record = none ∧ ∀ x, d.parked x = none) ∧
        B.Back d []
  | .recorded t items => (t = B.t ∧ items = B.items ∧ s.confirmed = false) ∧
      s.vol.All fun d b => ((B.Swapping d ∨ d.record = none ∧ .swap ∈ b) ∧ ∀ x, d.parked x = none) ∧
        B.Back d []
  | .quiescing t items =>
    (t = B.t ∧ items = B.items ∧ s.confirmed = false) ∧ B.Moving s.vol [] items
  | .moving t todo => (t = B.t ∧ s.confirmed = false) ∧
      ∃ done, B.items = done ++ todo ∧ B.Moving s.vol done todo
  | .aside t m todo => (t = B.t ∧ s.confirmed = false) ∧
      ∃ done, (B.items = done ++ m :: todo ∧ B.Moving s.vol done todo) ∧ m.role = .replace ∧
        s.vol.All fun d b => B.Held m (d.spot m.slot) ∨
          Dir.backend m.slot.backend ∈ b ∧ B.Fresh m (d.spot m.slot)
  | .placed t m todo => (t = B.t ∧ s.confirmed = false) ∧
      ∃ done, (B.items = done ++ m :: todo ∧ B.Moving s.vol done todo) ∧
        s.vol.All fun d b => B.Moved m (d.spot m.slot) ∨ Dir.backend m.slot.backend ∈ b ∧
          (m.role = .replace → B.Fresh m (d.spot m.slot) ∨ B.Held m (d.spot m.slot))
  | .loading t => (t = B.t ∧ s.confirmed = false) ∧ B.Moving s.vol B.items []
  | .proven t => (t = B.t ∧ s.confirmed = false) ∧ B.Moving s.vol B.items []
  | .confirming t => (t = B.t ∧ s.confirmed = false) ∧
      (s.vol.All fun d b => B.Confirmed d ∨ B.Swapping d ∧ .swap ∈ b) ∧
        ∀ m ∈ B.items, s.vol.All fun d _ => B.Moved m (d.spot m.slot)
  | .discarding _ => s.vol.All (B.Quiet s.confirmed) ∧ ¬ B.Swapping s.vol.live
  | .settling _ t => (t = B.t ∧ s.confirmed = false) ∧ B.AtRest s.vol
  | .restoring _ t todo failed => (t = B.t ∧ s.confirmed = false) ∧ failed = false ∧
      B.Restoring s.vol todo
  | .retired _ t x _ todo failed => (t = B.t ∧ s.confirmed = false) ∧ failed = false ∧
      ∃ m ∈ B.items, (m.role = .replace ∧ m.slot = x) ∧ B.Restoring s.vol (m.model :: todo) ∧
        s.vol.All fun d _ => B.Held m (d.spot m.slot)
  | .restored _ t x todo failed => (t = B.t ∧ s.confirmed = false) ∧ failed = false ∧
      ∃ m ∈ B.items, (m.role = .replace ∧ m.slot = x) ∧ todo ⊆ B.t.replaced ∧
        (s.vol.All fun d _ => B.Swapping d) ∧
        (s.vol.All fun d b => B.Fresh m (d.spot m.slot) ∨
          Dir.backend x.backend ∈ b ∧ B.Held m (d.spot m.slot)) ∧
        (∀ m' ∈ B.items, m'.role = .install → Agrees m'.slot s.vol) ∧
        ∀ m' ∈ B.items, m'.role = .replace → m'.slot ≠ x →
          ((s.vol.All fun d _ => B.Fresh m' (d.spot m'.slot)) ∨
            m'.model ∈ todo ∧ s.vol.All fun d _ => B.Held m' (d.spot m'.slot))
  | .removing _ t todo failed => (t = B.t ∧ s.confirmed = false) ∧ failed = false ∧
      B.Removing s.vol todo
  | .purging _ t x _ todo failed => (t = B.t ∧ s.confirmed = false) ∧ failed = false ∧
      (∃ m ∈ B.items, m.role = .install ∧ m.slot = x) ∧ B.Removing s.vol todo
  | .reloading _ t => (t = B.t ∧ s.confirmed = false) ∧ B.Removing s.vol []
  | .clearing _ t => (t = B.t ∧ s.confirmed = false) ∧ s.vol.All B.Undone ∧
      (s.vol.live.record = none ∨ s.vol.All fun d _ => B.Swapping d)
  | .cleared _ => s.confirmed = false ∧
      s.vol.All fun d b => B.Undone d b ∧ (.models ∈ b ∨ d.swap = none)

variable {B} {v : Volume (Disk F) Dir} {dirs : List Dir} {f : Disk F → Disk F}
  {done todo : List (Item F)}

/-! ### Operations that leave these models alone -/

theorem Moving.op (h : B.Moving v done todo) (hr : ∀ d, (f d).record = d.record)
    (hs : ∀ m, m ∈ done ∨ m ∈ todo → ∀ d, (f d).spot m.slot = d.spot m.slot) :
    B.Moving (v.op dirs f) done todo :=
  ⟨all_record h.record hr, fun m hm => all_spot (h.done m hm) (hs m (.inl hm)),
    fun m hm => all_spot (h.todo m hm) (hs m (.inr hm))⟩

theorem Moving.fsync (h : B.Moving v done todo) (d : Dir) :
    B.Moving (v.fsync d) done todo :=
  ⟨h.record.sync, fun m hm => (h.done m hm).sync, fun m hm => (h.todo m hm).sync⟩

/-- When a command is interrupted while it moves its items. -/
theorem Moving.atRest (h : B.Moving v done todo) (hi : B.items = done ++ todo) : B.AtRest v where
  record := h.record
  replaced := by
    intro m hm hr
    rw [hi, mem_append] at hm
    rcases hm with hm | hm
    · exact .inr ((h.done m hm).mono fun d b hd => hd.2 hr)
    · exact .inl (h.todo m hm)
  installed := by
    intro m hm hr
    have hm' := hm
    rw [hi, mem_append] at hm'
    rcases hm' with hm' | hm'
    · have hall := h.done m hm'
      exact hall.mono fun d b hd => .inr (congrArg Option.isSome (hd.1.trans hall.live.1.symm))
    · have hall := h.todo m hm'
      exact hall.mono fun d b hd => .inr (congrArg Option.isSome (hd.1.trans hall.live.1.symm))

theorem Removing.atRest {todo : List SwapModel} (h : B.Removing v todo) : B.AtRest v :=
  ⟨h.record, fun m hm hr => .inl (h.replaced m hm hr), h.installed⟩

theorem AtRest.safe (h : B.AtRest v) : v.All (B.Safe false) := by
  intro i hi
  refine .swapping (h.record i hi) fun m hm hr => ?_
  rcases h.replaced m hm hr with hf | hh
  · exact .inl (hf i hi)
  · exact .inr (hh i hi)

theorem Undone.fresh {d : Disk F} {b : List Dir} (h : B.Undone d b) (hr : B.Swapping d) {m : Item F}
    (hm : m ∈ B.items) (hrole : m.role = .replace) : B.Fresh m (d.spot m.slot) := by
  refine ⟨(h.2 m hm).1 hrole, ?_⟩
  rcases h.1 with h0 | h0
  · rw [Swapping, h0] at hr
    cases hr
  · exact h0.2 m hm hrole

/-- A rollback that is to be done once more. -/
theorem atRest_of_undone (h : v.All B.Undone) (hr : v.All fun d _ => B.Swapping d) :
    B.AtRest v where
  record := hr
  replaced := fun m hm hrole => .inl fun i hi => (h i hi).fresh (hr i hi) hm hrole
  installed := by
    intro m hm hrole
    have hlive := ((h.live.2 m hm).2 hrole).resolve_right not_mem_nil
    refine h.mono fun d b hd => ((hd.2 m hm).2 hrole).symm.imp_right fun hn => ?_
    rw [hn, hlive]

/-- Nothing is recorded, or another batch, or this one is confirmed. -/
theorem not_swapping {d : Disk F} (h : d.record = none ∨ B.Confirmed d) : ¬ B.Swapping d := by
  intro hs
  rcases h with h | h
  · cases h.symm.trans hs
  · cases h.symm.trans hs

/-- What is there on disk is there in the images that are behind. -/
theorem Back.behind {d : Disk F} (h : B.Back d []) (b : List Dir) : B.Back d b :=
  fun m hm => ⟨(h m hm).1, fun hr => .inl (((h m hm).2 hr).resolve_right not_mem_nil)⟩

theorem Quiet.behind {d : Disk F} (h : B.Quiet false d []) (b : List Dir) : B.Quiet false d b := by
  cases h with
  | undone h => exact .undone ⟨h.1, h.2.behind b⟩
  | other r hr hp ht h => exact .other r hr hp ht h

/-- One item is on its way. -/
theorem Moving.safe {m : Item F} (h : B.Moving v done todo) (hi : B.items = done ++ m :: todo)
    (hm : m.role = .replace →
      v.All fun d _ => B.Fresh m (d.spot m.slot) ∨ B.Held m (d.spot m.slot)) :
    v.All (B.Safe false) := by
  intro i hi'
  refine .swapping (h.record i hi') fun m' hm' hrole => ?_
  rw [hi, mem_append, mem_cons] at hm'
  rcases hm' with hm' | rfl | hm'
  · exact .inr ((h.done m' hm' i hi').2 hrole)
  · exact hm hrole i hi'
  · exact .inl (h.todo m' hm' i hi')

/-- **Every image can be recovered from.** -/
theorem Holds.safe {s : Sys F} (h : B.Holds s) : s.vol.All (B.Safe s.confirmed) := by
  unfold Holds at h
  split at h
  · -- idle
    rcases h with ⟨hc, h⟩ | h
    · rw [hc]
      exact h.safe
    · exact h.1.mono fun d b h => .quiet h
  · exact h.1.mono fun d b h => .quiet h
  · -- opening, recording, recorded: nothing has been moved
    obtain ⟨⟨-, -, hc⟩, h⟩ := h
    rw [hc]
    exact h.mono fun d b h => .quiet (h.1.behind b)
  · obtain ⟨⟨-, -, hc⟩, h⟩ := h
    rw [hc]
    exact h.mono fun d b h => .quiet (.undone ⟨.inl h.1.2.1, h.2.behind b⟩)
  · obtain ⟨⟨-, -, hc⟩, h⟩ := h
    rw [hc]
    refine h.mono fun d b h => ?_
    rcases h.1.1 with hr | ⟨hr, -⟩
    · exact .swapping hr fun m hm hrole => .inl ⟨(h.2 m hm).1 hrole, h.1.2 _⟩
    · exact .quiet (.undone ⟨.inl hr, h.2.behind b⟩)
  · obtain ⟨⟨-, hitems, hc⟩, h⟩ := h
    rw [hc]
    exact (h.atRest hitems.symm).safe
  · obtain ⟨⟨-, hc⟩, done, hitems, h⟩ := h
    rw [hc]
    exact (h.atRest hitems).safe
  · -- aside
    obtain ⟨⟨-, hc⟩, done, ⟨hitems, h⟩, -, hm⟩ := h
    rw [hc]
    exact h.safe hitems fun _ => hm.mono fun d b hd => hd.symm.imp_left And.right
  · -- placed
    obtain ⟨⟨-, hc⟩, done, ⟨hitems, h⟩, hm⟩ := h
    rw [hc]
    exact h.safe hitems fun hrole => hm.mono fun d b hd =>
      hd.elim (fun hmoved => .inr (hmoved.2 hrole)) fun hor => hor.2 hrole
  · obtain ⟨⟨-, hc⟩, h⟩ := h
    rw [hc]
    exact (h.atRest (append_nil _).symm).safe
  · obtain ⟨⟨-, hc⟩, h⟩ := h
    rw [hc]
    exact (h.atRest (append_nil _).symm).safe
  · -- confirming
    obtain ⟨⟨-, hc⟩, hr, h⟩ := h
    rw [hc]
    intro i hi
    rcases hr i hi with hr | ⟨hr, -⟩
    · exact .confirmed hr (fun m hm => (h m hm i hi).1) fun m hm hrole => (h m hm i hi).2 hrole
    · exact .swapping hr fun m hm hrole => .inr ((h m hm i hi).2 hrole)
  · exact h.1.mono fun d b h => .quiet h
  · obtain ⟨⟨-, hc⟩, h⟩ := h
    rw [hc]
    exact h.safe
  · obtain ⟨⟨-, hc⟩, -, h⟩ := h
    rw [hc]
    exact h.toAtRest.safe
  · obtain ⟨⟨-, hc⟩, -, m, -, -, h, -⟩ := h
    rw [hc]
    exact h.toAtRest.safe
  · -- restored: one model is on its way back
    obtain ⟨⟨-, hc⟩, -, m, hm, ⟨-, rfl⟩, -, hrec, hback, -, hothers⟩ := h
    rw [hc]
    intro i hi
    refine .swapping (hrec i hi) fun m' hm' hrole => ?_
    by_cases e : m'.slot = m.slot
    · obtain rfl := B.eq_of_slot hm' hm e
      exact (hback i hi).imp_right And.right
    · exact (hothers m' hm' hrole e).imp (fun h => h i hi) fun h => h.2 i hi
  · obtain ⟨⟨-, hc⟩, -, h⟩ := h
    rw [hc]
    exact h.atRest.safe
  · obtain ⟨⟨-, hc⟩, -, -, h⟩ := h
    rw [hc]
    exact h.atRest.safe
  · obtain ⟨⟨-, hc⟩, h⟩ := h
    rw [hc]
    exact h.atRest.safe
  · obtain ⟨⟨-, hc⟩, h, -⟩ := h
    rw [hc]
    exact h.mono fun d b h => .quiet (.undone h)
  · obtain ⟨hc, h⟩ := h
    rw [hc]
    exact h.mono fun d b h => .quiet (.undone h.1)

/-! ## 4. Steps -/

section Steps

variable {s s' : Sys F}

/-- What a crash leaves, if it leaves a record or has lost nothing of the backend directories. -/
theorem Holds.crashed (h : B.Holds s) (ht : s.last = B.txn) {i : Image (Disk F) Dir}
    (hi : i ∈ s.vol.images) (hlast : i.disk.record = none → ∀ x, Dir.backend x ∉ i.behind) :
    B.Holds ({ s with
      vol := .clean i.disk, pc := .idle, confirmed := s.confirmed || s.confirms i.disk }) := by
  have hsafe := h.safe i hi
  generalize hc : s.confirmed = c at hsafe
  show _ ∧ _ ∨ _
  have hswap : c = false → B.Swapping i.disk → (∀ m ∈ B.items, m.role = .replace →
      B.Fresh m (i.disk.spot m.slot) ∨ B.Held m (i.disk.spot m.slot)) →
      (c || s.confirms i.disk) = false ∧ B.AtRest (.clean i.disk) := by
    intro hc hr hm
    have hno : s.confirms i.disk = false := by
      rw [Sys.confirms, hr]
      rfl
    refine ⟨by rw [hc, hno]; rfl, Volume.all_clean hr, fun m hmem hrole => ?_,
      fun m _ _ => agrees_clean _⟩
    exact (hm m hmem hrole).imp (fun h => Volume.all_clean h) fun h => Volume.all_clean h
  cases hsafe with
  | quiet hq =>
    cases hq with
    | undone hu =>
      rcases hu.1 with hr | ⟨hr, -⟩
      · right
        have hno : s.confirms i.disk = false := by rw [Sys.confirms, hr]; rfl
        rw [hno]
        refine ⟨Volume.all_clean (.undone ⟨.inl hr, fun m hm =>
          ⟨(hu.2 m hm).1, fun hrole => .inl ?_⟩⟩), not_swapping (.inl hr)⟩
        exact ((hu.2 m hm).2 hrole).resolve_right (hlast hr _)
      · exact .inl (hswap rfl hr fun m hm hrole => .inl (hu.fresh hr hm hrole))
    | other r hr hp htx hb =>
      right
      have hno : s.confirms i.disk = false := by
        rw [Sys.confirms, hr, ht]
        exact decide_eq_false fun h => htx h.2
      rw [hno]
      refine ⟨Volume.all_clean (.other r hr hp htx hb), fun hs => ?_⟩
      cases hr.symm.trans hs
      cases hp
    | done hr hl => exact .inr ⟨Volume.all_clean (.done hr hl), not_swapping hr⟩
  | swapping hr hm => exact .inl (hswap rfl hr hm)
  | confirmed hr hl hh =>
    right
    have hyes : s.confirms i.disk = true := by
      rw [Sys.confirms, hr, ht]
      exact decide_eq_true ⟨rfl, rfl⟩
    rw [hyes]
    exact ⟨Volume.all_clean (.done (.inr hr) hl), not_swapping (.inr hr)⟩

/-- A process that is killed. -/
theorem Holds.killed (h : B.Holds s) (hk : s.settled = true) : B.Holds { s with pc := .idle } := by
  unfold Sys.settled at hk
  unfold Holds at h
  show _ ∧ _ ∨ _
  generalize s.pc = pc at h hk
  cases pc with
  | recorded | aside | placed | confirming | restored => cases hk
  | idle => exact h
  | ready =>
    refine .inr ⟨h.1, not_swapping (.inl ?_)⟩
    rw [record, h.2]
    rfl
  | opening t items =>
    obtain ⟨⟨-, -, hc⟩, h⟩ := h
    rw [hc]
    exact .inr ⟨h.mono fun d b h => h.1.behind b, not_swapping (.inl (h.live.2 not_mem_nil).2.1)⟩
  | recording t items =>
    obtain ⟨⟨-, -, hc⟩, h⟩ := h
    rw [hc]
    exact .inr ⟨h.mono fun d b h => .undone ⟨.inl h.1.2.1, h.2.behind b⟩,
      not_swapping (.inl h.live.1.2.1)⟩
  | quiescing t items =>
    obtain ⟨⟨-, hitems, hc⟩, h⟩ := h
    exact .inl ⟨hc, h.atRest hitems.symm⟩
  | moving t todo =>
    obtain ⟨⟨-, hc⟩, done, hitems, h⟩ := h
    exact .inl ⟨hc, h.atRest hitems⟩
  | loading t | proven t => exact .inl ⟨h.1.2, h.2.atRest (append_nil _).symm⟩
  | discarding back => exact .inr h
  | settling back t => exact .inl ⟨h.1.2, h.2⟩
  | restoring back t todo failed => exact .inl ⟨h.1.2, h.2.2.toAtRest⟩
  | retired back t x grave todo failed =>
    obtain ⟨⟨-, hc⟩, -, m, -, -, h, -⟩ := h
    exact .inl ⟨hc, h.toAtRest⟩
  | removing back t todo failed => exact .inl ⟨h.1.2, h.2.2.atRest⟩
  | purging back t x grave todo failed => exact .inl ⟨h.1.2, h.2.2.2.atRest⟩
  | reloading back t => exact .inl ⟨h.1.2, h.2.atRest⟩
  | clearing back t =>
    obtain ⟨⟨-, hc⟩, hu, hr⟩ := h
    rcases hr with hr | hr
    · rw [hc]
      exact .inr ⟨hu.mono fun d b h => .undone h, not_swapping (.inl hr)⟩
    · exact .inl ⟨hc, atRest_of_undone hu hr⟩
  | cleared back =>
    obtain ⟨hc, h⟩ := h
    rw [hc]
    refine .inr ⟨h.mono fun d b h => .undone h.1, not_swapping (.inl ?_)⟩
    rw [record, h.live.2.resolve_left not_mem_nil]
    rfl

variable {b b' : List Dir} {d d' : Disk F}

theorem Back.mono (h : B.Back d b) (hd : d'.dest = d.dest) (hb : b ⊆ b') : B.Back d' b' := by
  intro m hm
  unfold Gone
  rw [hd]
  exact ⟨(h m hm).1, fun hr => ((h m hm).2 hr).imp_right fun hx => hb hx⟩

theorem Undone.mono (h : B.Undone d b) (hd : d'.dest = d.dest)
    (hr : d'.record = none ∨ d'.record = d.record)
    (hp : ∀ x, d.parked x = none → d'.parked x = none)
    (hb : b ⊆ b') : B.Undone d' b' := by
  refine ⟨?_, h.2.mono hd hb⟩
  rcases hr with hr | hr
  · exact .inl hr
  · rcases h.1 with h0 | ⟨h0, hpark⟩
    · exact .inl (hr.trans h0)
    · exact .inr ⟨hr.trans h0, fun m hm hrole => hp _ (hpark m hm hrole)⟩

/-- What leaves the installed models alone and writes no record. -/
theorem Quiet.mono {c : Bool} (h : B.Quiet c d b) (hd : d'.dest = d.dest)
    (hr : d'.record = none ∨ d'.record = d.record)
    (hp : ∀ x, d.parked x = none → d'.parked x = none)
    (hb : b ⊆ b') : B.Quiet c d' b' := by
  cases h with
  | undone h => exact .undone (h.mono hd hr hp hb)
  | other r h0 hconf ht h =>
    rcases hr with hr | hr
    · exact .undone ⟨.inl hr, h.mono hd (nil_subset _)⟩
    · exact .other r (hr.trans h0) hconf ht (h.mono hd (List.Subset.refl _))
  | done h0 h =>
    refine .done ?_ fun m hm => (congrFun hd _).trans (h m hm)
    exact hr.elim .inl fun e => h0.imp e.trans e.trans

/-! ### Moving -/

/-- The record is on disk: nothing has been moved yet. -/
theorem moving_start
    (h : v.All fun d b => ((B.Swapping d ∨ d.record = none ∧ .swap ∈ b) ∧ ∀ x, d.parked x = none) ∧
      B.Back d []) : B.Moving (v.fsync .swap) [] B.items where
  record := h.fsync fun d b h hb => h.1.1.resolve_right fun h' => hb h'.2
  done := fun m hm => by cases hm
  todo := by
    intro m hm
    refine h.fsync fun d b h _ => ⟨?_, h.1.2 _⟩
    cases hr : m.role with
    | replace => exact (h.2 m hm).1 hr
    | install =>
      exact (((h.2 m hm).2 hr).resolve_right not_mem_nil).trans (B.free m hm hr).symm

variable {m : Item F}

/-- An item is in its place, and synced. -/
theorem Moving.next {done todo : List (Item F)} (h : B.Moving v done todo)
    (hm : v.All fun d b => B.Moved m (d.spot m.slot) ∨ Dir.backend m.slot.backend ∈ b ∧
      (m.role = .replace → B.Fresh m (d.spot m.slot) ∨ B.Held m (d.spot m.slot))) :
    B.Moving (v.fsync (.backend m.slot.backend)) (done ++ [m]) todo where
  record := h.record.sync
  done := by
    intro m' hm'
    rw [mem_append, mem_singleton] at hm'
    rcases hm' with hm' | rfl
    · exact (h.done m' hm').sync
    · exact hm.fsync fun d b h hb => h.resolve_right fun h' => hb h'.1
  todo := fun m' hm' => (h.todo m' hm').sync

theorem swap_of_swapping {d : Disk F} (h : B.Swapping d) : d.swap.isSome = true := by
  obtain ⟨w, hw, -⟩ := Option.bind_eq_some_iff.mp h
  rw [hw]
  rfl

/-! ### Rolling back -/

variable {todo : List SwapModel}

/-- An operation on one model, whose predecessor stays under `.swap`. -/
theorem Restoring.op_held (h : B.Restoring v todo)
    (hm : m ∈ B.items) (hrole : m.role = .replace) (htodo : m.model ∈ todo)
    (hheld : v.All fun d _ => B.Held m (d.spot m.slot)) (hr : ∀ d, (f d).record = d.record)
    (hp : ∀ d, (f d).parked m.slot = d.parked m.slot)
    (hs : ∀ y, y ≠ m.slot → ∀ d, (f d).spot y = d.spot y) :
    B.Restoring (v.op dirs f) todo ∧ (v.op dirs f).All fun d _ => B.Held m (d.spot m.slot) := by
  have hheld' : (v.op dirs f).All fun d _ => B.Held m (d.spot m.slot) :=
    hheld.keep fun d ⟨t, ht, hpk⟩ => ⟨t, ht, (hp d).trans hpk⟩
  have hne : ∀ m' ∈ B.items, m' ≠ m → ∀ d, (f d).spot m'.slot = d.spot m'.slot :=
    fun m' hm' hne => hs _ fun e => hne (B.eq_of_slot hm' hm e)
  refine ⟨⟨⟨all_record h.record hr, fun m' hm' hrole' => ?_, fun m' hm' hrole' => ?_⟩, h.sub,
    fun m' hm' hrole' hout => ?_⟩, hheld'⟩
  · by_cases e : m' = m
    · rw [e]
      exact .inr hheld'
    · exact (h.replaced m' hm' hrole').imp (fun h => all_spot h (hne m' hm' e))
        fun h => all_spot h (hne m' hm' e)
  · refine (h.installed m' hm' hrole').op (hne m' hm' fun e => ?_)
    rw [e, hrole] at hrole'
    cases hrole'
  · exact all_spot (h.fresh m' hm' hrole' hout) (hne m' hm' fun e => hout (e ▸ htodo))

/-- The predecessor of `m` is renamed back. -/
theorem Restoring.unpark (h : B.Restoring v (m.model :: todo))
    (hm : m ∈ B.items) (hrole : m.role = .replace)
    (hheld : v.All fun d _ => B.Held m (d.spot m.slot)) {v' : Volume (Disk F) Dir}
    (hv : v' = v.op [.parked m.slot.backend, .backend m.slot.backend] (unpark m.slot)) :
    todo ⊆ B.t.replaced ∧ (v'.All fun d _ => B.Swapping d) ∧
      (v'.All fun d b => B.Fresh m (d.spot m.slot) ∨
        Dir.backend m.slot.backend ∈ b ∧ B.Held m (d.spot m.slot)) ∧
      (∀ m' ∈ B.items, m'.role = .install → Agrees m'.slot v') ∧
      ∀ m' ∈ B.items, m'.role = .replace → m'.slot ≠ m.slot →
        ((v'.All fun d _ => B.Fresh m' (d.spot m'.slot)) ∨
          m'.model ∈ todo ∧ v'.All fun d _ => B.Held m' (d.spot m'.slot)) := by
  subst hv
  refine ⟨fun x hx => h.sub (mem_cons_of_mem _ hx),
    all_record h.record fun d => record_unpark .., ?_,
    fun m' hm' hrole' => ?_, fun m' hm' hrole' hne => ?_⟩
  · refine hheld.op (fun d b hd _ => .inl ?_) fun d b hd => .inr ⟨by simp, hd⟩
    obtain ⟨t, ht, hp⟩ := hd
    have hp : d.parked m.slot = some ⟨B.txn, t⟩ := hp
    exact ⟨(dest_unpark_self hp).trans ht.symm, (parked_unpark ..).trans (if_pos rfl)⟩
  · refine (h.installed m' hm' hrole').op fun d => spot_unpark fun e => ?_
    rw [B.eq_of_slot hm' hm e, hrole] at hrole'
    cases hrole'
  · by_cases hin : m'.model ∈ todo
    · exact (h.replaced m' hm' hrole').imp (fun h => all_spot h fun d => spot_unpark hne)
        fun h => ⟨hin, all_spot h fun d => spot_unpark hne⟩
    · refine .inl (all_spot (h.fresh m' hm' hrole' ?_) fun d => spot_unpark hne)
      rw [mem_cons, not_or]
      exact ⟨fun e => hne (congrArg SwapModel.slot e), hin⟩

/-- Both directories are synced: one model less to restore. -/
theorem Restoring.next (hm : m ∈ B.items)
    (hsub : todo ⊆ B.t.replaced) (hrec : v.All fun d _ => B.Swapping d)
    (hback : v.All fun d b => B.Fresh m (d.spot m.slot) ∨
      Dir.backend m.slot.backend ∈ b ∧ B.Held m (d.spot m.slot))
    (hinst : ∀ m' ∈ B.items, m'.role = .install → Agrees m'.slot v)
    (hothers : ∀ m' ∈ B.items, m'.role = .replace → m'.slot ≠ m.slot →
      ((v.All fun d _ => B.Fresh m' (d.spot m'.slot)) ∨
        m'.model ∈ todo ∧ v.All fun d _ => B.Held m' (d.spot m'.slot))) :
    B.Restoring ((v.fsync (.backend m.slot.backend)).fsync (.parked m.slot.backend)) todo := by
  have hfresh : (v.fsync (.backend m.slot.backend)).All fun d _ => B.Fresh m (d.spot m.slot) :=
    hback.fsync fun d b h hb => h.resolve_right fun h' => hb h'.1
  refine ⟨⟨hrec.sync.sync, fun m' hm' hrole' => ?_, fun m' hm' hrole' => ?_⟩, hsub,
    fun m' hm' hrole' hout => ?_⟩
  · by_cases e : m'.slot = m.slot
    · obtain rfl := B.eq_of_slot hm' hm e
      exact .inl hfresh.sync
    · exact (hothers m' hm' hrole' e).imp (fun h => h.sync.sync) fun h => h.2.sync.sync
  · exact ((hinst m' hm' hrole').fsync _).fsync _
  · by_cases e : m'.slot = m.slot
    · obtain rfl := B.eq_of_slot hm' hm e
      exact hfresh.sync
    · exact ((hothers m' hm' hrole' e).resolve_right fun h => hout h.1).sync.sync

/-- A model that is not under `.swap` has been restored, or was never moved. -/
theorem Restoring.skip (h : B.Restoring v (m.model :: todo))
    (hm : m ∈ B.items) (hrole : m.role = .replace) (hp : v.live.parked m.slot = none) :
    B.Restoring v todo := by
  have hfresh : v.All fun d _ => B.Fresh m (d.spot m.slot) := by
    refine (h.replaced m hm hrole).resolve_right fun hh => ?_
    obtain ⟨t, -, hpk⟩ := hh.live
    have hpk : v.live.parked m.slot = _ := hpk
    rw [hp] at hpk
    cases hpk
  refine ⟨h.toAtRest, fun x hx => h.sub (mem_cons_of_mem _ hx), fun m' hm' hrole' hout => ?_⟩
  by_cases e : m' = m
  · rw [e]
    exact hfresh
  · refine h.fresh m' hm' hrole' ?_
    rw [mem_cons, not_or]
    exact ⟨fun e' => e (B.eq_of_slot hm' hm (congrArg SwapModel.slot e')), hout⟩

section Installs

variable (hm : m ∈ B.items) (hrole : m.role = .install)
include hm hrole

/-- An operation on one fresh install. -/
theorem Removing.op_at {todo' : List SwapModel} (h : B.Removing v todo)
    (hr : ∀ d, (f d).record = d.record)
    (hs : ∀ y, y ≠ m.slot → ∀ d, (f d).spot y = d.spot y) (hsub : todo' ⊆ todo)
    (hless : ∀ x ∈ todo, x = m.model ∨ x ∈ todo') (hagree : Agrees m.slot (v.op dirs f))
    (hgone : m.model ∉ todo' → (v.op dirs f).All (Gone m)) : B.Removing (v.op dirs f) todo' := by
  have hne : ∀ m' ∈ B.items, m' ≠ m → ∀ d, (f d).spot m'.slot = d.spot m'.slot :=
    fun m' hm' hne => hs _ fun e => hne (B.eq_of_slot hm' hm e)
  refine ⟨all_record h.record hr, fun m' hm' hrole' => ?_, fun m' hm' hrole' => ?_,
    fun x hx => h.sub (hsub hx), fun m' hm' hrole' hout => ?_⟩
  · refine all_spot (h.replaced m' hm' hrole') (hne m' hm' fun e => ?_)
    rw [e, hrole] at hrole'
    cases hrole'
  · by_cases e : m' = m
    · rw [e]
      exact hagree
    · exact (h.installed m' hm' hrole').op (hne m' hm' e)
  · by_cases e : m' = m
    · rw [e]
      exact hgone (e ▸ hout)
    · refine gone_op (h.gone m' hm' hrole' fun hin => ?_) (hne m' hm' e)
      rcases hless _ hin with e' | hin'
      · exact e (B.eq_of_slot hm' hm (congrArg SwapModel.slot e'))
      · exact hout hin'

/-- A fresh install is renamed into the trash. -/
theorem Removing.retire (h : B.Removing v (m.model :: todo)) :
    B.Removing (v.op [.backend m.slot.backend, .trash] (retire m.slot)) todo := by
  have hgone : (v.op [.backend m.slot.backend, .trash] (Disk.retire m.slot)).All (Gone m) :=
    h.record.op (fun d b _ _ => .inl ((dest_retire ..).trans (if_pos rfl)))
      fun d b _ => .inr mem_cons_self
  refine h.op_at hm hrole (fun _ => rfl) (fun y hy d => spot_retire hy) (subset_cons_self _ _)
    (fun x hx => mem_cons.mp hx) (hgone.mono fun d b hg => ?_) fun _ => hgone
  refine hg.symm.imp_right fun hd => ?_
  rw [hd]
  show _ = ((v.live.retire m.slot).dest m.slot).isSome
  rw [dest_retire, if_pos rfl]

theorem Removing.purge [DecidableEq F] (h : B.Removing v todo) (t : List F) (keep : F → Bool) :
    B.Removing (v.op [] (purge m.slot t keep)) todo := by
  have hsome : ∀ d : Disk F, ((d.purge m.slot t keep).dest m.slot).isSome =
      (d.dest m.slot).isSome := by
    intro d
    unfold Disk.purge
    split
    · rename_i hd
      rw [hd]
      show (Function.update d.dest m.slot _ m.slot).isSome = true
      rw [Function.update_self]
      rfl
    · rfl
  refine h.op_at hm hrole (fun d => record_purge ..) (fun y hy d => spot_purge t keep hy)
    (List.Subset.refl _) (fun x hx => .inr hx) ?_ fun hout => ?_
  · refine Volume.All.op (h.installed m hm hrole) (fun d b hd _ => ?_) fun d b hd => ?_
    · rw [Volume.live_op, hsome, hsome]
      exact hd
    · rw [Volume.live_op, hsome]
      exact hd
  · exact (h.gone m hm hrole hout).op (fun d b hd _ => hd.imp_left fun hn => dest_purge_none _ _ hn)
      fun d b hd => hd

/-- A fresh install that is not there. -/
theorem Removing.skip (h : B.Removing v (m.model :: todo)) (hn : v.live.dest m.slot = none) :
    B.Removing v todo := by
  refine ⟨h.record, h.replaced, h.installed, fun x hx => h.sub (mem_cons_of_mem _ hx),
    fun m' hm' hrole' hout => ?_⟩
  by_cases e : m' = m
  · rw [e]
    exact (h.installed m hm hrole).gone hn
  · refine h.gone m' hm' hrole' ?_
    rw [mem_cons, not_or]
    exact ⟨fun e' => e (B.eq_of_slot hm' hm (congrArg SwapModel.slot e')), hout⟩

end Installs

theorem Restoring.removing (h : B.Restoring v []) : B.Removing v B.t.installed := by
  refine ⟨h.record, fun m hm hrole => h.fresh m hm hrole not_mem_nil, h.installed,
    List.Subset.refl _, fun m hm hrole hout => ?_⟩
  exact absurd (B.mem_only.mpr ⟨m, hm, hrole, rfl⟩) hout

theorem Removing.undone (h : B.Removing v []) : v.All B.Undone := by
  intro i hi
  refine ⟨.inr ⟨h.record i hi, fun m hm hrole => (h.replaced m hm hrole i hi).2⟩, fun m hm => ?_⟩
  exact ⟨fun hrole => (h.replaced m hm hrole i hi).1,
    fun hrole => h.gone m hm hrole not_mem_nil i hi⟩

end Steps

end Batch

end Postvec.Registry.Swap
