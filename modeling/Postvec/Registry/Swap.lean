import Mathlib.Logic.Function.Basic
import Postvec.Format.Grammar
import Postvec.Lib.Crash
import Postvec.Lib.Run
import Postvec.Lib.Table

/-!
# Replacing models in place

`postvec model pull` and `upgrade` apply a batch of replacements and fresh installs as one
transaction (`apply`): a record under `models/.swap` is written first (`begin_swap`), each
predecessor is moved to `.swap/<backend>/<name>` before the new directory takes its place
(`swap_in`, `install_staged`), and when the engine has loaded everything the record is confirmed and
`.swap` removed (`confirm_swap`). A failure, or the next command after a crash
(`recover_pending_swap`), moves the predecessors back and removes the fresh installs
(`restore_swapped`, `remove_recorded_installs`) and removes `.swap` last (`clear_swap`).

A command is a sequence of calls; between two of them the machine may crash (`Act.crash`) or the
process be killed (`Act.kill`), each call to the filesystem may fail (`Act.fail`), and what the
engine answers is `Act.engine`. `remove_dir_all` is many operations in any order. A crash leaves one
of the images of the volume: a change is safe only when its directory has been synced. A killed
process leaves everything as it is, and a later crash may still lose its changes.

Of a model's directory only the files count (`F` is whatever one file is). Not in the state: the
temporary file of the record and the directories `.swap/<backend>` and `<backend>`, which are there
and synced before anything is moved into them. The number of a transaction (`txn`) is in no file; it
says by which transaction a copy was moved aside.
-/

namespace Postvec.Registry.Swap

open Machine

/-! ## 1. The disk -/

structure Slot where
  backend : Text
  name : Text
deriving DecidableEq

inductive SwapRole where
  | replace
  | install
deriving DecidableEq

structure SwapModel where
  slot : Slot
  role : SwapRole
deriving DecidableEq

inductive SwapPhase where
  | swapping
  | confirmed
deriving DecidableEq

structure SwapRecord where
  phase : SwapPhase
  models : List SwapModel
  txn : Nat
deriving DecidableEq

/-- A predecessor under `.swap`. -/
structure Copy (F : Type) where
  txn : Nat
  files : List F

/-- The directory `.swap`. -/
structure SwapDir (F : Type) where
  record : Option SwapRecord
  parked : Table Slot (Copy F)

structure Disk (F : Type) where
  swap : Option (SwapDir F)
  dest : Slot → Option (List F)

/-- The directories whose entries change. -/
inductive Dir where
  | models
  | swap
  | parked (backend : Text)
  | backend (backend : Text)
  | staging
  | trash
deriving DecidableEq

def Dir.isBackend : Dir → Bool
  | .backend _ => true
  | _ => false

namespace Disk

variable {F : Type}

def record (d : Disk F) : Option SwapRecord := d.swap.bind fun w => w.record

def parked (d : Disk F) (x : Slot) : Option (Copy F) := d.swap.bind fun w => w.parked.get x

def mkSwap (d : Disk F) : Disk F := { d with swap := some (d.swap.getD ⟨none, .empty⟩) }

def rmSwap (d : Disk F) : Disk F := { d with swap := none }

/-- The record is renamed into place. -/
def setRecord (r : SwapRecord) (d : Disk F) : Disk F :=
  { d with swap := d.swap.map fun w => { w with record := some r } }

def dropRecord (d : Disk F) : Disk F :=
  { d with swap := d.swap.map fun w => { w with record := none } }

/-- `rename(installed, parked)`, by the transaction `txn` -/
def park (txn : Nat) (x : Slot) (d : Disk F) : Disk F :=
  match d.swap, d.dest x with
  | some w, some t =>
    ⟨some { w with parked := w.parked.put x ⟨txn, t⟩ }, Function.update d.dest x none⟩
  | _, _ => d

/-- `rename(parked, destination)` -/
def unpark (x : Slot) (d : Disk F) : Disk F :=
  match d.swap, d.parked x with
  | some w, some c =>
    ⟨some { w with parked := w.parked.erase x }, Function.update d.dest x (some c.files)⟩
  | _, _ => d

/-- `rename(staged, destination)` -/
def place (x : Slot) (t : List F) (d : Disk F) : Disk F :=
  { d with dest := Function.update d.dest x (some t) }

/-- The destination is renamed into the trash. -/
def retire (x : Slot) (d : Disk F) : Disk F := { d with dest := Function.update d.dest x none }

/-- Some of the files of a retired directory are deleted. Where the rename into the trash is lost,
    the directory is still at its destination. -/
def purge [DecidableEq F] (x : Slot) (t : List F) (keep : F → Bool) (d : Disk F) : Disk F :=
  if d.dest x = some t then { d with dest := Function.update d.dest x (some (t.filter keep)) }
  else d

/-- Some of the files of a copy under `.swap` are deleted. -/
def shrink (x : Slot) (keep : F → Bool) (d : Disk F) : Disk F :=
  { d with swap := d.swap.map fun w =>
      { w with parked := w.parked.adjust x fun c => { c with files := c.files.filter keep } } }

/-- An empty directory under `.swap` is deleted. -/
def drop (x : Slot) (d : Disk F) : Disk F :=
  { d with swap := d.swap.map fun w => { w with parked := w.parked.erase x } }

/-! ### What each operation changes -/

section Operations

variable (d : Disk F) (x y : Slot) (r : SwapRecord) (t : List F) (k : Nat) (keep : F → Bool)

@[simp] theorem isSome_mkSwap : d.mkSwap.swap.isSome = true := rfl

@[simp] theorem isSome_rmSwap : d.rmSwap.swap.isSome = false := rfl

@[simp] theorem isSome_setRecord : (d.setRecord r).swap.isSome = d.swap.isSome :=
  Option.isSome_map ..

@[simp] theorem isSome_dropRecord : d.dropRecord.swap.isSome = d.swap.isSome := Option.isSome_map ..

@[simp] theorem isSome_shrink : (d.shrink x keep).swap.isSome = d.swap.isSome :=
  Option.isSome_map ..

@[simp] theorem isSome_drop : (d.drop x).swap.isSome = d.swap.isSome := Option.isSome_map ..

@[simp] theorem isSome_park : (d.park k x).swap.isSome = d.swap.isSome := by
  unfold park
  split
  · rename_i hw _
    rw [hw]
    rfl
  · rfl

@[simp] theorem isSome_unpark : (d.unpark x).swap.isSome = d.swap.isSome := by
  unfold unpark
  split
  · rename_i hw _
    rw [hw]
    rfl
  · rfl

@[simp] theorem isSome_purge [DecidableEq F] : (d.purge x t keep).swap.isSome = d.swap.isSome := by
  unfold purge
  split <;> rfl

@[simp] theorem record_mkSwap : d.mkSwap.record = d.record := by
  unfold mkSwap record
  cases d.swap <;> rfl

@[simp] theorem parked_mkSwap : d.mkSwap.parked y = d.parked y := by
  unfold mkSwap parked
  cases d.swap <;> rfl

@[simp] theorem record_rmSwap : d.rmSwap.record = none := rfl

@[simp] theorem record_setRecord : (d.setRecord r).record = d.swap.map fun _ => r := by
  unfold setRecord record
  cases d.swap <;> rfl

@[simp] theorem parked_setRecord : (d.setRecord r).parked y = d.parked y := by
  unfold setRecord parked
  cases d.swap <;> rfl

@[simp] theorem dest_setRecord : (d.setRecord r).dest = d.dest := rfl

@[simp] theorem record_dropRecord : d.dropRecord.record = none := by
  unfold dropRecord record
  cases d.swap <;> rfl

@[simp] theorem parked_dropRecord : d.dropRecord.parked y = d.parked y := by
  unfold dropRecord parked
  cases d.swap <;> rfl

@[simp] theorem parked_place : (d.place x t).parked y = d.parked y := rfl

@[simp] theorem dest_place : (d.place x t).dest y = if y = x then some t else d.dest y :=
  Function.update_apply ..

@[simp] theorem parked_retire : (d.retire x).parked y = d.parked y := rfl

@[simp] theorem dest_retire : (d.retire x).dest y = if y = x then none else d.dest y :=
  Function.update_apply ..

@[simp] theorem record_shrink : (d.shrink x keep).record = d.record := by
  unfold shrink record
  cases d.swap <;> rfl

@[simp] theorem parked_shrink : (d.shrink x keep).parked y =
    if y = x then (d.parked y).map fun c => { c with files := c.files.filter keep }
    else d.parked y := by
  unfold shrink parked
  cases d.swap with
  | none => exact (ite_self _).symm
  | some w => rfl

@[simp] theorem record_drop : (d.drop x).record = d.record := by
  unfold drop record
  cases d.swap <;> rfl

@[simp] theorem parked_drop : (d.drop x).parked y = if y = x then none else d.parked y := by
  unfold drop parked
  cases d.swap with
  | none => exact (ite_self _).symm
  | some w => rfl

@[simp] theorem record_park : (d.park k x).record = d.record := by
  unfold park record
  split
  · rename_i hw _
    rw [hw]
    rfl
  · rfl

@[simp] theorem record_unpark : (d.unpark x).record = d.record := by
  unfold unpark record
  split
  · rename_i hw _
    rw [hw]
    rfl
  · rfl

@[simp] theorem parked_unpark : (d.unpark x).parked y = if y = x then none else d.parked y := by
  unfold unpark
  split
  · rename_i w c hw hc
    unfold parked
    rw [hw]
    rfl
  · rename_i hno
    split
    · rename_i e
      subst e
      cases hw : d.swap with
      | none => simp [parked, hw]
      | some w =>
        cases hc : d.parked y with
        | none => rfl
        | some c => exact absurd hc (hno w c hw)
    · rfl

theorem dest_unpark_of_ne {x y : Slot} (h : y ≠ x) : (d.unpark x).dest y = d.dest y := by
  unfold unpark
  split
  · exact Function.update_of_ne h _ _
  · rfl

theorem swap_of_parked {d : Disk F} {x : Slot} {c : Copy F} (h : d.parked x = some c) :
    ∃ w, d.swap = some w ∧ w.parked.get x = some c := Option.bind_eq_some_iff.mp h

theorem dest_unpark_self {d : Disk F} {x : Slot} {c : Copy F} (h : d.parked x = some c) :
    (d.unpark x).dest x = some c.files := by
  obtain ⟨w, hw, -⟩ := swap_of_parked h
  unfold unpark
  rw [hw, h]
  exact Function.update_self ..

theorem parked_park_of_ne {x y : Slot} (h : y ≠ x) : (d.park k x).parked y = d.parked y := by
  unfold park
  split
  · rename_i w _ hw _
    unfold parked
    rw [hw]
    show (if y = x then _ else w.parked.get y) = w.parked.get y
    exact if_neg h
  · rfl

theorem dest_park_of_ne {x y : Slot} (h : y ≠ x) : (d.park k x).dest y = d.dest y := by
  unfold park
  split
  · exact Function.update_of_ne h _ _
  · rfl

/-- Where there is a `.swap` and something to move. -/
theorem parked_park_self {d : Disk F} {x : Slot} {t : List F} (hw : d.swap.isSome)
    (ht : d.dest x = some t) : (d.park k x).parked x = some ⟨k, t⟩ := by
  obtain ⟨w, hw⟩ := Option.isSome_iff_exists.mp hw
  unfold park
  rw [hw, ht]
  show (if x = x then _ else _) = _
  exact if_pos rfl

/-- What lies at `x` after a `park` is of that transaction, or was there before. -/
theorem txn_park {d : Disk F} {x : Slot} {c : Copy F} (h : (d.park k x).parked x = some c) :
    c.txn = k ∨ d.parked x = some c := by
  unfold park at h
  split at h
  · left
    have h : (if x = x then _ else _) = some c := h
    rw [if_pos rfl] at h
    rw [← Option.some.inj h]
  · exact .inr h

@[simp] theorem record_purge [DecidableEq F] : (d.purge x t keep).record = d.record := by
  unfold purge
  split <;> rfl

@[simp] theorem parked_purge [DecidableEq F] : (d.purge x t keep).parked y = d.parked y := by
  unfold purge
  split <;> rfl

theorem dest_purge_of_ne [DecidableEq F] {x y : Slot} (h : y ≠ x) :
    (d.purge x t keep).dest y = d.dest y := by
  unfold purge
  split
  · exact Function.update_of_ne h _ _
  · rfl

theorem dest_purge_none [DecidableEq F] {d : Disk F} {x y : Slot} (h : d.dest y = none) :
    (d.purge x t keep).dest y = none := by
  unfold purge
  split
  · rename_i hx
    by_cases e : y = x
    · rw [e, hx] at h
      cases h
    · exact (Function.update_of_ne e _ _).trans h
  · exact h

end Operations

end Disk

/-! ## 2. A command -/

/-- A member of a batch and its staged directory. -/
structure Item (F : Type) where
  slot : Slot
  role : SwapRole
  staged : List F
deriving DecidableEq

def Item.model {F : Type} (m : Item F) : SwapModel := ⟨m.slot, m.role⟩

/-- `SwapTransaction` -/
structure Txn where
  models : List SwapModel
  txn : Nat
deriving DecidableEq

def Txn.record (t : Txn) (phase : SwapPhase) : SwapRecord := ⟨phase, t.models, t.txn⟩

/-- The models of one role. -/
def Txn.only (t : Txn) (role : SwapRole) : List SwapModel := t.models.filter fun m => m.role = role

def Txn.replaced (t : Txn) : List SwapModel := t.only .replace

def Txn.installed (t : Txn) : List SwapModel := t.only .install

/-- The call a command has come to. A rollback knows whether the command goes on after it (`back`:
    it is the recovery at its beginning) and whether something has gone wrong on the way
    (`failed`). -/
inductive Pc (F : Type) where
  | idle
  /-- the lock is held and `recover_pending_swap` has returned -/
  | ready
  -- `begin_swap`
  | opening (t : Txn) (items : List (Item F))
  | recording (t : Txn) (items : List (Item F))
  | recorded (t : Txn) (items : List (Item F))
  -- `apply`
  | quiescing (t : Txn) (items : List (Item F))
  | moving (t : Txn) (todo : List (Item F))
  | aside (t : Txn) (m : Item F) (todo : List (Item F))
  | placed (t : Txn) (m : Item F) (todo : List (Item F))
  | loading (t : Txn)
  | proven (t : Txn)
  | confirming (t : Txn)
  /-- `remove_dir_all(.swap)`, whatever comes of it -/
  | discarding (back : Bool)
  -- `quiesce` and `restore_and_prove`
  | settling (back : Bool) (t : Txn)
  | restoring (back : Bool) (t : Txn) (todo : List SwapModel) (failed : Bool)
  | retired (back : Bool) (t : Txn) (x : Slot) (grave : List F) (todo : List SwapModel)
    (failed : Bool)
  | restored (back : Bool) (t : Txn) (x : Slot) (todo : List SwapModel) (failed : Bool)
  | removing (back : Bool) (t : Txn) (todo : List SwapModel) (failed : Bool)
  | purging (back : Bool) (t : Txn) (x : Slot) (grave : List F) (todo : List SwapModel)
    (failed : Bool)
  | reloading (back : Bool) (t : Txn)
  | clearing (back : Bool) (t : Txn)
  | cleared (back : Bool)
deriving DecidableEq

/-- Where a command goes on, or ends. -/
def Pc.after {F : Type} (back : Bool) : Pc F := if back then .ready else .idle

structure Sys (F : Type) where
  vol : Volume (Disk F) Dir
  pc : Pc F
  /-- the last transaction -/
  last : Nat
  /-- its confirmed record has reached the disk -/
  confirmed : Bool

inductive Act (F : Type) where
  /-- a command takes the lock and looks for an interrupted batch -/
  | recover
  | begin (items : List (Item F))
  /-- another command changes an installed model -/
  | edit (x : Slot) (t : Option (List F))
  | finish
  /-- the next call -/
  | go
  /-- the next call to the filesystem fails; `undone`: the predecessor could be put back at once -/
  | fail (undone : Bool)
  | engine (ok : Bool)
  -- parts of a `remove_dir_all`
  | purge (keep : F → Bool)
  | dropRecord
  | shrink (x : Slot) (keep : F → Bool)
  | drop (x : Slot)
  | crash (k : Nat)
  | kill

namespace Sys

variable {F : Type}

/-- Nothing is left in `.swap`. -/
def emptied (s : Sys F) : Bool :=
  match s.vol.live.swap with
  | none => true
  | some w => w.record.isNone && !w.parked.any fun _ _ => true

/-- The rename to `.swap/<backend>/<name>` is refused if a directory with files is there. -/
def blocked (s : Sys F) (x : Slot) : Bool := (s.vol.live.parked x).any fun c => !c.files.isEmpty

/-- The next call of the command succeeds. -/
def go (s : Sys F) : Option (Sys F) :=
  match s.pc with
  | .opening t items => some { s with vol := s.vol.fsync .models, pc := .recording t items }
  | .recording t items =>
    some { s with
      vol := s.vol.op [.swap] (Disk.setRecord (t.record .swapping))
      pc := .recorded t items }
  | .recorded t items => some { s with vol := s.vol.fsync .swap, pc := .quiescing t items }
  | .moving t [] => some { s with pc := .loading t }
  | .moving t (m :: todo) =>
    match m.role with
    | .install =>
      if (s.vol.live.dest m.slot).isSome then some { s with pc := .settling false t }
      else
        some { s with
          vol := s.vol.op [.staging, .backend m.slot.backend] (Disk.place m.slot m.staged)
          pc := .placed t m todo }
    | .replace =>
      if (s.vol.live.dest m.slot).isNone || s.blocked m.slot then
        some { s with pc := .settling false t }
      else
        some { s with
          vol := s.vol.op [.backend m.slot.backend, .parked m.slot.backend] (Disk.park t.txn m.slot)
          pc := .aside t m todo }
  | .aside t m todo =>
    some { s with
      vol := s.vol.op [.staging, .backend m.slot.backend] (Disk.place m.slot m.staged)
      pc := .placed t m todo }
  | .placed t m todo =>
    -- `install_staged` has nothing to sync under `.swap`
    let synced := s.vol.fsync (.backend m.slot.backend)
    let synced := if m.role = .replace then synced.fsync (.parked m.slot.backend) else synced
    some { s with vol := synced.fsync .staging, pc := .moving t todo }
  | .proven t =>
    some { s with
      vol := s.vol.op [.swap] (Disk.setRecord (t.record .confirmed))
      pc := .confirming t }
  | .confirming _ =>
    some { s with vol := s.vol.fsync .swap, pc := .discarding false, confirmed := true }
  | .discarding back =>
    if s.emptied then some { s with vol := s.vol.op [.models] Disk.rmSwap, pc := .after back }
    else none
  | .restoring back t [] failed =>
    some { s with pc := if failed then .idle else .removing back t t.installed false }
  | .restoring back t (m :: todo) failed =>
    match s.vol.live.parked m.slot with
    | none => some { s with pc := .restoring back t todo failed }
    | some _ =>
      match s.vol.live.dest m.slot with
      | some grave =>
        some { s with
          vol := s.vol.op [.backend m.slot.backend, .trash] (Disk.retire m.slot)
          pc := .retired back t m.slot grave todo failed }
      | none =>
        some { s with
          vol := s.vol.op [.parked m.slot.backend, .backend m.slot.backend] (Disk.unpark m.slot)
          pc := .restored back t m.slot todo failed }
  | .retired back t x _ todo failed =>
    some { s with
      vol := s.vol.op [.parked x.backend, .backend x.backend] (Disk.unpark x)
      pc := .restored back t x todo failed }
  | .restored back t x todo failed =>
    some { s with
      vol := (s.vol.fsync (.backend x.backend)).fsync (.parked x.backend)
      pc := .restoring back t todo failed }
  | .removing back t [] failed => some { s with pc := if failed then .idle else .reloading back t }
  | .removing back t (m :: todo) failed =>
    match s.vol.live.dest m.slot with
    | none => some { s with pc := .removing back t todo failed }
    | some grave =>
      some { s with
        vol := s.vol.op [.backend m.slot.backend, .trash] (Disk.retire m.slot)
        pc := .purging back t m.slot grave todo failed }
  | .purging back t _ _ todo failed => some { s with pc := .removing back t todo failed }
  | .clearing back _ =>
    if s.emptied then some { s with vol := s.vol.op [.models] Disk.rmSwap, pc := .cleared back }
    else none
  | .cleared back => some { s with vol := s.vol.fsync .models, pc := .after back }
  | _ => none

/-- The next call to the filesystem fails. -/
def fail (s : Sys F) (undone : Bool) : Option (Sys F) :=
  match s.pc with
  | .opening _ _ => some { s with pc := .idle }
  | .recording _ _ => some { s with pc := .idle }
  | .recorded _ _ => some { s with pc := .idle }
  | .moving t (_ :: _) => some { s with pc := .settling false t }
  | .aside t m _ =>
    -- the predecessor is put back before the error is reported
    if undone then
      some { s with
        vol := s.vol.op [.parked m.slot.backend, .backend m.slot.backend] (Disk.unpark m.slot)
        pc := .settling false t }
    else some { s with pc := .settling false t }
  -- a failed sync counts as if no directory had been synced
  | .placed t _ _ => some { s with pc := .settling false t }
  | .proven _ => some { s with pc := .idle }
  | .confirming _ => some { s with pc := .idle }
  | .discarding back => some { s with pc := .after back }
  -- a rollback goes on with the next model
  | .restoring back t (_ :: todo) _ => some { s with pc := .restoring back t todo true }
  | .retired back t _ _ todo _ => some { s with pc := .restoring back t todo true }
  | .restored back t _ todo _ => some { s with pc := .restoring back t todo true }
  | .removing back t (_ :: todo) _ => some { s with pc := .removing back t todo true }
  | .purging back t _ _ todo _ => some { s with pc := .removing back t todo true }
  | .clearing _ _ => some { s with pc := .idle }
  | .cleared _ => some { s with pc := .idle }
  | _ => none

/-- The engine's answer. Where it fails, the record stays. -/
def engine (s : Sys F) (ok : Bool) : Option (Sys F) :=
  match s.pc with
  | .quiescing t items => some { s with pc := if ok then .moving t items else .idle }
  | .loading t => some { s with pc := if ok then .proven t else .settling false t }
  | .settling back t =>
    some { s with pc := if ok then .restoring back t t.replaced false else .idle }
  | .reloading back t => some { s with pc := if ok then .clearing back t else .idle }
  | _ => none

/-- `recover_pending_swap`, up to its first change -/
def recover (s : Sys F) : Sys F :=
  match s.vol.live.record with
  | none => { s with pc := if s.vol.live.swap.isSome then .discarding true else .ready }
  | some ⟨.confirmed, _, _⟩ => { s with pc := .discarding true }
  | some ⟨.swapping, models, txn⟩ => { s with pc := .settling true ⟨models, txn⟩ }

/-- `begin_swap`, up to its first change -/
def begin (s : Sys F) (items : List (Item F)) : Sys F :=
  if s.vol.live.record.isSome then { s with pc := .idle }
  else
    { vol := if s.vol.live.swap.isSome then s.vol else s.vol.op [.models] Disk.mkSwap
      pc := .opening ⟨items.map Item.model, s.last + 1⟩ items
      last := s.last + 1
      confirmed := false }

/-- `remove_dir_all(.swap)` is under way. -/
def sweeping (s : Sys F) : Bool :=
  match s.pc with
  | .discarding _ => true
  | .clearing _ _ => true
  | _ => false

/-- A retired directory whose files are being deleted. -/
def grave (s : Sys F) : Option (Slot × List F) :=
  match s.pc with
  | .retired _ _ x t _ _ => some (x, t)
  | .purging _ _ x t _ _ => some (x, t)
  | _ => none

/-- The crash leaves the confirmed record of the last transaction. -/
def confirms (s : Sys F) (d : Disk F) : Bool :=
  d.record.any fun r => r.phase = .confirmed ∧ r.txn = s.last

def step [DecidableEq F] (s : Sys F) : Act F → Option (Sys F)
  | .recover =>
    match s.pc with
    | .idle => some s.recover
    | _ => none
  | .begin items =>
    match s.pc with
    | .ready => some (s.begin items)
    | _ => none
  | .edit x t =>
    match s.pc with
    | .ready =>
      some { s with vol := s.vol.op [.backend x.backend] fun d =>
        { d with dest := Function.update d.dest x t } }
    | _ => none
  | .finish =>
    match s.pc with
    | .ready => some { s with pc := .idle }
    | _ => none
  | .go => s.go
  | .fail undone => s.fail undone
  | .engine ok => s.engine ok
  | .purge keep => s.grave.map fun g => { s with vol := s.vol.op [] (Disk.purge g.1 g.2 keep) }
  | .dropRecord =>
    if s.sweeping then some { s with vol := s.vol.op [.swap] Disk.dropRecord } else none
  | .shrink x keep =>
    if s.sweeping then some { s with vol := s.vol.op [] (Disk.shrink x keep) } else none
  | .drop x =>
    if s.sweeping ∧ (s.vol.live.parked x).all fun c => c.files.isEmpty then
      some { s with vol := s.vol.op [.parked x.backend] (Disk.drop x) }
    else none
  | .crash k =>
    (s.vol.crash k).map fun vol =>
      { s with vol := vol, pc := .idle, confirmed := s.confirmed || s.confirms vol.live }
  | .kill => some { s with pc := .idle }

/-- A root without `.swap`. -/
def start (dest : Slot → Option (List F)) : Sys F := ⟨.clean ⟨none, dest⟩, .idle, 0, false⟩

end Sys

end Postvec.Registry.Swap
