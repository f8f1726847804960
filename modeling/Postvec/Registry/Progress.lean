import Mathlib.Algebra.BigOperators.Group.Finset.Piecewise
import Mathlib.Algebra.BigOperators.Pi
import Mathlib.Algebra.Order.BigOperators.Group.Finset
import Mathlib.Tactic.Linarith
import Postvec.Lib.Run

/-!
# The progress counter of concurrent downloads

`download_all` runs its downloads concurrently, with one `Progress`. A download adds its archive's
size to `total` and what its part file has to `done`, then every chunk it has written; `remove_part`
takes off what it discards. Here a part file is its length, each archive has its own, and a `step`
is what one download does between two points where others may run.

A chunk is credited when `write_all` of `tokio::fs::File` returns, and that is when its last block
is with a background thread. Whether that block is stored shows at the next `write_all`; `sync_all`
waits for it and drops its error. A download that breaks off leaves the block to the thread
(`strays`). So `done` is exact as long as every download that leaves a response has stored just what
it has credited (`lasting`).

`done` and `total` are integers here: a `done` below zero is an underflow of the atomic counter.
Removing a part succeeds, and what a thread writes to a removed part is nowhere.
-/

namespace Postvec.Registry.Progress

open Machine

/-- Where a download stands. -/
inductive Phase where
  | waiting
  /-- its archive is in `total`, its part not yet in `done` -/
  | registered
  /-- it has no response to read from -/
  | between
  /-- the range from `offset` on is asked for -/
  | requested (offset : Nat)
  /-- it reads a response: the part is to have `written` bytes, of which the background thread has
      the last `busy` ones, and the last write has failed or not -/
  | streaming (written busy : Nat) (failed : Bool)
  | ended
deriving DecidableEq

structure Download where
  size : Nat
  /-- the length of the part file, zero if there is none -/
  len : Nat
  phase : Phase
  /-- blocks of responses that were left, with their offsets, still to be written -/
  strays : List (Nat × Nat)
deriving DecidableEq

inductive Event where
  | register
  | count
  /-- the part is looked at and removed if it is larger than the archive, and the rest asked for -/
  | request
  /-- no answer, or one that changes nothing: a redirect, a refusal, a 206 from another offset -/
  | refused
  | rangeNotSatisfiable
  /-- a 200, with the length of the archive or not -/
  | whole (advertised : Bool)
  /-- a 206 that starts where the part ended -/
  | partialContent
  /-- `write_all` of `n` bytes returns; it goes in blocks, and the last one is with the thread -/
  | chunk (n last : Nat)
  /-- the thread is done with the block, and has stored so much of it -/
  | landed (stored : Nat)
  | stray (i stored : Nat)
  /-- `write_all` fails, for a block before or one of its own, and has stored so much -/
  | failedWrite (n stored : Nat)
  /-- the response stalls, breaks, ends early or is too long, or the part is not synced or hashed -/
  | broken
  /-- all bytes have arrived and the part is synced; the digest is right or not -/
  | complete (verified : Bool)
  /-- no source is left -/
  | giveUp

/-- The length of the part once `stored` bytes are written at `offset`. -/
def Download.wrote (d : Download) (offset stored : Nat) : Nat :=
  if stored = 0 then d.len else max d.len (offset + stored)

/-- `remove_part`: the download, and what is added to `done` and `total`. -/
def Download.removePart (d : Download) (phase : Phase) : Download × Int × Int :=
  (⟨d.size, 0, phase, []⟩, -(min d.len d.size : Nat), 0)

/-- One event of a download, with what is added to `done` and `total`. -/
def Download.step (d : Download) (e : Event) : Option (Download × Int × Int) :=
  match d.phase, e with
  | .waiting, .register => some ({ d with phase := .registered }, 0, d.size)
  | .registered, .count => some ({ d with phase := .between }, (min d.len d.size : Nat), 0)
  | .between, .request =>
    if d.len > d.size then some (d.removePart (.requested 0))
    else some ({ d with phase := .requested d.len }, 0, 0)
  | .between, .giveUp => some ({ d with phase := .ended }, 0, 0)
  | .requested _, .refused => some ({ d with phase := .between }, 0, 0)
  | .requested _, .rangeNotSatisfiable => some (d.removePart .between)
  | .requested offset, .whole advertised =>
    let phase := if advertised then Phase.streaming 0 0 false else .between
    if offset > 0 then some (d.removePart phase)
    -- the open truncates
    else some ({ d with len := if advertised then 0 else d.len, phase }, 0, 0)
  | .requested offset, .partialContent => some ({ d with phase := .streaming offset 0 false }, 0, 0)
  | .streaming w busy failed, .chunk n last =>
    if busy = 0 ∧ failed = false ∧ w + n ≤ d.size ∧ 0 < last ∧ last ≤ n then
      some ({ d with len := d.wrote w (n - last), phase := .streaming (w + n) last false }, n, 0)
    else none
  | .streaming w busy _, .landed stored =>
    if 0 < busy ∧ stored ≤ busy then
      some ({ d with
        len := d.wrote (w - busy) stored
        phase := .streaming w 0 (decide (stored < busy)) }, 0, 0)
    else none
  | .streaming w busy failed, .failedWrite n stored =>
    if busy = 0 ∧ w + n ≤ d.size ∧ stored < n ∧ (failed = true → stored = 0) then
      some ({ d with len := d.wrote w stored, phase := .between }, 0, 0)
    else none
  | .streaming w busy _, .broken =>
    some ({ d with
      phase := .between
      strays := if busy = 0 then d.strays else (w - busy, busy) :: d.strays }, 0, 0)
  | .streaming w busy _, .complete verified =>
    if busy ≠ 0 ∨ w ≠ d.size then none
    else if verified then some ({ d with phase := .ended }, 0, 0)
    else some (d.removePart .between)
  | _, .stray i stored =>
    match d.strays[i]? with
    | none => none
    | some (offset, n) =>
      if stored ≤ n then some ({ d with
        len := d.wrote offset stored
        strays := d.strays.eraseIdx i }, 0, 0)
      else none
  | _, _ => none

structure Sys (ι : Type*) where
  downloads : ι → Download
  done : Int
  total : Int

variable {ι : Type*} [DecidableEq ι]

def Sys.step (s : Sys ι) (a : ι × Event) : Option (Sys ι) :=
  ((s.downloads a.1).step a.2).map fun r =>
    ⟨Function.update s.downloads a.1 r.1, s.done + r.2.1, s.total + r.2.2⟩

/-- Before any download is registered. -/
def start (archives : ι → Nat × Nat) : Sys ι :=
  ⟨fun i => ⟨(archives i).1, (archives i).2, .waiting, []⟩, 0, 0⟩

/-- A download that leaves a response has stored just what it has credited. -/
def Download.lasting (d : Download) (e : Event) : Bool :=
  match d.phase, e with
  | .streaming w _ _, .failedWrite _ stored => d.len == w && stored == 0
  | .streaming w _ _, .broken | .streaming w _ _, .complete _ => d.len == w
  | _, _ => true

def Sys.lasting (s : Sys ι) (a : ι × Event) : Bool := (s.downloads a.1).lasting a.2

/-- What a download stands for in `done`: once it has been counted, what its part file has, capped
    at the archive, and while it reads a response, what it has credited. -/
def Download.counted (d : Download) : Int :=
  match d.phase with
  | .waiting | .registered => 0
  | .streaming w _ _ => w
  | .between | .requested _ | .ended => (min d.len d.size : Nat)

def Download.weight (d : Download) : Int := if d.phase = .waiting then 0 else d.size

/-- The counter is within its bounds, and is what the downloads stand for. -/
structure Sys.Exact [Fintype ι] (s : Sys ι) : Prop where
  nonneg : 0 ≤ s.done
  le_total : s.done ≤ s.total
  sum : s.done = ∑ i, (s.downloads i).counted

/-- The part has what was written, but for what the thread has, or a write that failed has lost. -/
structure Download.Aligned (d : Download) : Prop where
  strays : d.strays = []
  asked : ∀ offset, d.phase = .requested offset → offset = d.len ∧ d.len ≤ d.size
  part : ∀ w busy failed, d.phase = .streaming w busy failed →
    w ≤ d.size ∧ d.len + busy ≤ w ∧ (busy ≠ 0 ∨ failed = false → d.len + busy = w)

/-- What one event does to what the download stands for, and to the counters. -/
structure Moves (d d' : Download) (e : Event) (x y : Int) : Prop where
  counted : d'.counted = d.counted + x ↔ d.lasting e = true
  weight : d'.weight = d.weight + y
  aligned : d.lasting e = true → d'.Aligned

/-- An event that leaves no response. -/
theorem Moves.keeps {d d' : Download} {e : Event} {x y : Int} (hl : d.lasting e = true)
    (hc : d'.counted = d.counted + x) (hw : d'.weight = d.weight + y) (ha : d'.Aligned) :
    Moves d d' e x y :=
  ⟨⟨fun _ => hl, fun _ => hc⟩, hw, fun _ => ha⟩

/-- A download that neither waits for an answer nor reads one. -/
theorem aligned_of {d : Download} (hs : d.strays = [])
    (hp : ∀ offset, d.phase ≠ .requested offset) (hp' : ∀ w b f, d.phase ≠ .streaming w b f) :
    d.Aligned :=
  ⟨hs, fun _ h => absurd h (hp _), fun _ _ _ h => absurd h (hp' _ _ _)⟩

/-- A download with a part that has what was written. -/
theorem aligned_streaming {size len w busy : Nat} {failed : Bool} (hw : w ≤ size)
    (hle : len + busy ≤ w) (h : busy ≠ 0 ∨ failed = false → len + busy = w) :
    Download.Aligned ⟨size, len, .streaming w busy failed, []⟩ :=
  ⟨rfl, fun _ h => (nomatch h), fun _ _ _ hp => by cases hp; exact ⟨hw, hle, h⟩⟩

/-- An event that leaves a response, with what the part then has. -/
theorem Moves.leaves {size len len' w busy : Nat} {failed : Bool} {phase : Phase}
    {strays : List (Nat × Nat)} {e : Event} (hsize : len' ≤ size)
    (hphase : phase = .between ∨ phase = .ended)
    (hl : Download.lasting ⟨size, len, .streaming w busy failed, []⟩ e = true ↔ len' = w)
    (hs : len' = w → strays = []) :
    Moves ⟨size, len, .streaming w busy failed, []⟩ ⟨size, len', phase, strays⟩ e 0 0 := by
  have hc : Download.counted ⟨size, len', phase, strays⟩ = len' := by
    rcases hphase with rfl | rfl <;> simp [Download.counted, hsize]
  have hp : ∀ offset, phase ≠ .requested offset := by
    intro offset h
    rcases hphase with rfl | rfl <;> cases h
  have hp' : ∀ w b f, phase ≠ .streaming w b f := by
    intro w b f h
    rcases hphase with rfl | rfl <;> cases h
  refine ⟨?_, ?_, fun h => aligned_of (hs (hl.mp h)) hp hp'⟩
  · rw [hl, hc, Download.counted]
    simp
  · rcases hphase with rfl | rfl <;> simp [Download.weight]

/-- An event while a response is read. -/
theorem Download.Aligned.moves_streaming {size len w busy : Nat} {failed : Bool} {d' : Download}
    {e : Event} {x y : Int} (hd : Aligned ⟨size, len, .streaming w busy failed, []⟩)
    (h : step ⟨size, len, .streaming w busy failed, []⟩ e = some (d', x, y)) :
    Moves ⟨size, len, .streaming w busy failed, []⟩ d' e x y := by
  obtain ⟨hw, hle, hpart⟩ := hd.part w busy failed rfl
  dsimp only at hw hle hpart
  cases e with
  | chunk n last =>
    obtain ⟨⟨rfl, rfl, hn, h0, hlast⟩, h⟩ := guarded h
    have hlen : len = w := hpart (.inr rfl)
    cases h
    refine .keeps rfl (by simp [counted]) (by simp [weight]) (aligned_streaming hn ?_ fun _ => ?_)
    all_goals
      unfold wrote
      dsimp only
      split <;> omega
  | landed stored =>
    obtain ⟨⟨h0, hst⟩, h⟩ := guarded h
    have hlen := hpart (.inl (by omega))
    cases h
    refine .keeps rfl (by simp [counted]) (by simp [weight]) (aligned_streaming hw ?_ fun hf => ?_)
    · unfold wrote
      dsimp only
      split <;> omega
    · have hst' : stored = busy := by
        simp only [ne_eq, not_true_eq_false, false_or, decide_eq_false_iff_not, not_lt] at hf
        omega
      unfold wrote
      dsimp only
      split <;> omega
  | failedWrite n stored =>
    obtain ⟨⟨rfl, hn, hst, hf⟩, h⟩ := guarded h
    cases h
    refine .leaves ?_ (.inl rfl) ?_ fun _ => rfl
    · unfold wrote
      dsimp only at hn ⊢
      split <;> omega
    · -- a write that fails for the block before stores nothing
      have hlen : failed = false → len = w := fun h => hpart (.inr h)
      unfold wrote
      simp only [lasting, Bool.and_eq_true, beq_iff_eq]
      split
      · simp [*]
      · rename_i hne
        have := hlen (Bool.eq_false_iff.mpr fun h => hne (hf h))
        omega
  | broken =>
    cases h
    refine .leaves (Nat.le_of_add_right_le (hle.trans hw)) (.inl rfl) (by simp [lasting])
      fun h => ?_
    dsimp only at h
    rw [if_pos (by omega)]
  | complete verified =>
    obtain ⟨hfull, h⟩ := Option.ite_none_left_eq_some.mp h
    obtain ⟨rfl, rfl⟩ : busy = 0 ∧ w = size := by simpa using hfull
    cases verified with
    | true =>
      cases h
      exact .leaves (hle.trans hw) (.inr rfl) (by simp [lasting]) fun _ => rfl
    | false =>
      cases h
      refine ⟨?_, by simp [weight], fun _ => aligned_of rfl (fun _ h => nomatch h)
        fun _ _ _ h => nomatch h⟩
      simp only [counted, lasting, beq_iff_eq]
      omega
  | _ => cases h

/-- One event moves a download and the counters alike, exactly if it lasts. -/
theorem Download.step_moves {d d' : Download} {e : Event} {x y : Int} (hd : d.Aligned)
    (h : d.step e = some (d', x, y)) : Moves d d' e x y := by
  obtain ⟨size, len, phase, strays⟩ := d
  obtain rfl : strays = [] := hd.strays
  have idle : ∀ {n : Nat} {p : Phase}, p = .registered ∨ p = .between ∨ p = .ended →
      Aligned ⟨size, n, p, []⟩ := by
    intro n p hp
    rcases hp with rfl | rfl | rfl <;>
      exact aligned_of rfl (fun _ h => nomatch h) fun _ _ _ h => nomatch h
  cases phase with
  | waiting =>
    cases e with
    | register =>
      cases h
      exact .keeps rfl (by simp [counted]) (by simp [weight]) (idle (.inl rfl))
    | _ => cases h
  | registered =>
    cases e with
    | count =>
      cases h
      exact .keeps rfl (by simp [counted]) (by simp [weight]) (idle (.inr (.inl rfl)))
    | _ => cases h
  | between =>
    cases e with
    | request =>
      simp only [step] at h
      split at h
      · cases h
        refine .keeps rfl (by simp [counted]) (by simp [weight])
          ⟨rfl, fun _ hp => ?_, fun _ _ _ hp => nomatch hp⟩
        cases hp
        exact ⟨rfl, Nat.zero_le _⟩
      · rename_i hsize
        cases h
        refine .keeps rfl (by simp [counted]) (by simp [weight])
          ⟨rfl, fun _ hp => ?_, fun _ _ _ hp => nomatch hp⟩
        cases hp
        exact ⟨rfl, not_lt.mp hsize⟩
    | giveUp =>
      cases h
      exact .keeps rfl (by simp [counted]) (by simp [weight]) (idle (.inr (.inr rfl)))
    | _ => cases h
  | requested offset =>
    obtain ⟨rfl, hsize⟩ := hd.asked offset rfl
    dsimp only at hsize
    cases e with
    | refused | rangeNotSatisfiable =>
      cases h
      exact .keeps rfl (by simp [counted]) (by simp [weight]) (idle (.inr (.inl rfl)))
    | whole advertised =>
      have hzero : Aligned ⟨size, 0, if advertised then .streaming 0 0 false
          else .between, []⟩ := by
        cases advertised with
        | true => exact aligned_streaming (Nat.zero_le _) (Nat.zero_le _) fun _ => rfl
        | false => exact idle (.inr (.inl rfl))
      simp only [step] at h
      split at h
      · cases h
        refine .keeps rfl ?_ ?_ hzero
        all_goals cases advertised <;> simp [counted, weight]
      · obtain rfl : offset = 0 := by omega
        cases h
        refine .keeps rfl ?_ ?_ (by simpa using hzero)
        all_goals cases advertised <;> simp [counted, weight]
    | partialContent =>
      cases h
      exact .keeps rfl (by simp [counted, hsize]) (by simp [weight])
        (aligned_streaming hsize le_rfl fun _ => rfl)
    | _ => cases h
  | streaming w busy failed => exact hd.moves_streaming h
  | ended => cases e <;> cases h

theorem Download.Aligned.counted_le {d : Download} (hd : d.Aligned) :
    0 ≤ d.counted ∧ d.counted ≤ d.weight := by
  obtain ⟨size, len, phase, strays⟩ := d
  cases phase with
  | streaming w busy failed =>
    have hw := (hd.part w busy failed rfl).1
    simpa [counted, weight] using hw
  | _ => simp [counted, weight]

variable [Fintype ι]

theorem sum_update (f : Download → Int) (downloads : ι → Download) (i : ι) (d : Download) :
    ∑ j, f (Function.update downloads i d j) = ∑ j, f (downloads j) + (f d - f (downloads i)) := by
  have h := Finset.sum_update_of_mem (Finset.mem_univ i) (f ∘ downloads) (f d)
  have h' := Finset.add_sum_erase Finset.univ (f ∘ downloads) (Finset.mem_univ i)
  rw [← Function.comp_update, ← Finset.erase_eq] at h
  simp only [Function.comp_apply] at h h'
  linarith

/-- What the counters are made of. -/
structure Sys.Inv (s : Sys ι) : Prop where
  aligned : ∀ i, (s.downloads i).Aligned
  done : s.done = ∑ i, (s.downloads i).counted
  total : s.total = ∑ i, (s.downloads i).weight

omit [DecidableEq ι] in
theorem Sys.Inv.exact {s : Sys ι} (h : s.Inv) : s.Exact where
  nonneg := by
    rw [h.done]
    exact Finset.sum_nonneg fun i _ => (h.aligned i).counted_le.1
  le_total := by
    rw [h.done, h.total]
    exact Finset.sum_le_sum fun i _ => (h.aligned i).counted_le.2
  sum := h.done

/-- One step: the counter is what the downloads stand for exactly if the step lasts. -/
theorem Sys.Inv.step {s s' : Sys ι} {a : ι × Event} (hs : s.Inv) (h : s.step a = some s') :
    (s'.done = ∑ i, (s'.downloads i).counted ↔ s.lasting a = true) ∧
      (s.lasting a = true → s'.Inv) := by
  obtain ⟨⟨d, x, y⟩, hr, rfl⟩ := Option.map_eq_some_iff.mp h
  have hm := Download.step_moves (hs.aligned a.1) hr
  have hdone : s.done + x = ∑ i, (Function.update s.downloads a.1 d i).counted ↔
      s.lasting a = true := by
    rw [sum_update, ← hs.done, Sys.lasting, ← hm.counted]
    constructor <;> intro <;> omega
  refine ⟨hdone, fun hl => ⟨fun i => ?_, hdone.mpr hl, ?_⟩⟩
  · by_cases hi : i = a.1
    · subst hi
      simpa using hm.aligned hl
    · simpa [hi] using hs.aligned i
  · dsimp only
    rw [sum_update, hm.weight, ← hs.total]
    omega

end Postvec.Registry.Progress
