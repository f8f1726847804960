import Mathlib.Algebra.Order.BigOperators.Group.List
import Mathlib.Algebra.Order.Group.Nat
import Postvec.Managed.Outage

/-!
# How often the managed leader claims one job

The leader's embed step on the jobs of one entry, in column or chunk mode. What a claim reads, what
the inference answers and what a write finds are chosen by the run: other columns of a row may
change at any time, and a trigger of the table may reject a write or suppress it. A write that
changes no row, for either reason, does not find the version that was read.

`allowance` is what the attempts of the slot's jobs leave to claim. A claim takes one of it, a
refund gives one back, and a release with backoff does neither.

* **`claims_bounded`**: while nothing enqueues the slot and its writes find the version that was
  read, it is claimed at most five times for each job it had, and after that none is pending or
  retried.
* `claimed_again`: a write that does not find the version refunds the claim; a job is claimed six
  times, and is pending again.
-/

namespace Postvec.Delivery

open Machine Managed List Option

variable {K δ P X ν : Type*}

/-! ## 1. The machine -/

structure Sys (K δ P X ν : Type*) where
  db : Db K δ P
  /-- the claimed jobs in the leader's memory -/
  batch : List (Item K X ν)
  claims : Nat
  deferred : Nat

inductive Act (K δ X ν : Type*) where
  | writer (w : WriterAct K δ)
  /-- a crash, a lost leader lock, and any error of a step -/
  | crash
  | expire (ids : List Nat)
  | claim (ids : List Nat) (read : Slot K → Option (Option X × ν))
  | writeBack (outcome : Item K X ν → Outcome) (seen : Item K X ν → Outage.Seen ν)
  /-- a batch that was rejected as a whole -/
  | release (id : Nat)

variable [DecidableEq K]

/-- The sum of `f` over the jobs of the slot. -/
def total (κ : Slot K) (f : Job K → Nat) (js : List (Job K)) : Nat :=
  (js.map fun j => if j.slot = κ then f j else 0).sum

/-- How many of the jobs `ids` are of the slot. -/
def hits (κ : Slot K) (q : Queue K) (ids : List Nat) : Nat :=
  total κ (fun j => (ids.contains j.id).toNat) q.jobs

/-- The jobs of a claim that the byte budget releases. -/
def overBudget (U : Outage.Setup δ X) (read : Slot K → Option (Option X × ν)) (q : Queue K)
    (ids : List Nat) : List Nat :=
  (((claimLoop U.bytes U.recursive read 0
    ((q.claim fun j => ids.contains j.id).jobs.filter fun j => ids.contains j.id)).filter fun f =>
      f.2.isOverBudget).map fun f => f.1).map Job.id

def Sys.step [DecidableEq δ] [DecidableEq ν] [Inhabited P] (U : Outage.Setup δ X) (κ : Slot K)
    (s : Sys K δ P X ν) : Act K δ X ν → Option (Sys K δ P X ν)
  | .writer w =>
    (s.db.writer (triggers U.source U.recursive U.mode) w).map fun db => { s with db }
  | .crash => some { s with batch := [] }
  | .expire ids =>
    if s.batch.isEmpty &&
        ids.all fun i => s.db.queue.jobs.any fun j => decide (j.id = i) && j.claimed then
      (expire s.db ids).map fun db => { s with db }
    else none
  | .claim ids read =>
    if s.batch.isEmpty then
      (claimJobs U.bytes U.batchSize U.recursive read s.db ids).map fun c =>
        { db := { s.db with queue := c.1 }
          batch := c.2
          claims := s.claims + hits κ s.db.queue ids
          deferred := s.deferred + hits κ s.db.queue (overBudget U read s.db.queue ids) }
    else none
  | .writeBack outcome seen =>
    (Outage.writeBack false seen s.db (s.batch.map fun it => (it, outcome it))).map fun db =>
      { s with db, batch := [] }
  | .release id =>
    if s.batch.any fun it => it.id == id then
      (tryRelease s.db id true).map fun queue =>
        { s with db := { s.db with queue }, batch := s.batch.filter fun it => it.id != id }
    else none

/-- Nothing enqueues the slot. -/
def quiet (κ : Slot K) (s : Sys K δ P X ν) : Act K δ X ν → Bool
  | .writer (.commit x) => (s.db.txns.get x).all fun t => !t.own.contains κ
  | _ => true

/-- A write for the slot finds the version that was read. -/
def found [DecidableEq ν] (κ : Slot K) (s : Sys K δ P X ν) : Act K δ X ν → Bool
  | .writeBack _ seen => s.batch.all fun it => !decide (it.pk = κ.pk ∧ it.chunk = κ.chunk) ||
    it.version.all fun v => (seen it).current == some v
  | _ => true

/-! ## 2. What is left to claim -/

/-- What the attempts of a job leave to claim; a pending job can be claimed once in any case. -/
def worth (j : Job K) : Nat :=
  if j.claimed then maxAttempts - j.attempts else max 1 (maxAttempts - j.attempts)

def allowance (κ : Slot K) (q : Queue K) : Nat := total κ worth q.jobs

section Allowance

variable {κ : Slot K} {db db' : Db K δ P} {q q' q'' : Queue K} {f g : Job K → Nat}
  {js js' : List (Job K)} {id : Nat}

theorem total_le (h : ∀ j ∈ js, j.slot = κ → f j ≤ g j) : total κ f js ≤ total κ g js := by
  refine sum_le_sum fun j hj => ?_
  split
  · exact h j hj ‹_›
  · exact Nat.le_refl _

theorem total_sublist (h : js' <+ js) : total κ f js' ≤ total κ f js :=
  (h.map _).sum_le_sum fun _ _ => Nat.zero_le _

theorem total_add : total κ (fun j => f j + g j) js = total κ f js + total κ g js := by
  simp only [total, ← sum_map_add]
  refine congrArg sum (map_congr_left fun j _ => ?_)
  split <;> rfl

theorem total_map (p : Job K → Bool) :
    total κ f (js.map (Queue.claimJob p)) = total κ (fun j => f (Queue.claimJob p j)) js := by
  simp only [total, List.map_map, Function.comp_def, Queue.claimJob_slot]

/-- The jobs that `p` selects and the others. -/
theorem total_filter (p : Job K → Bool) (js : List (Job K)) :
    total κ g (js.filter p) + total κ f (js.filter fun j => !p j) =
      total κ (fun j => if p j then g j else f j) js := by
  induction js with
  | nil => rfl
  | cons j js ih => cases hp : p j <;> simp [total, hp] at ih ⊢ <;> omega

/-- What inserts add. -/
theorem allowance_insertAll : ∀ (l : List (Slot K × Nat)) (q : Queue K),
    allowance κ (q.insertAll l) ≤
      allowance κ q + (l.map fun p => if p.1 = κ then max 1 (maxAttempts - p.2) else 0).sum
  | [], _ => Nat.le_refl _
  | p :: l, q => by
    have ih := allowance_insertAll l (q.insertPending p.1 p.2)
    have hone : allowance κ (q.insertPending p.1 p.2) ≤
        allowance κ q + if p.1 = κ then max 1 (maxAttempts - p.2) else 0 := by
      unfold Queue.insertPending
      split
      · exact Nat.le_add_right _ _
      · simp [allowance, total, worth]
    rw [Queue.insertAll_cons, map_cons, sum_cons]
    omega

/-- What released jobs are worth when they are pending again. -/
theorem allowance_unclaimJobs (q : Queue K) (ids : List Nat) (r : Bool) :
    allowance κ (q.unclaimJobs ids r) ≤ total κ (fun j => if ids.contains j.id then
      max 1 (maxAttempts - if r then j.attempts - 1 else j.attempts) else worth j) q.jobs := by
  rw [← total_filter, Nat.add_comm]
  refine (allowance_insertAll _ _).trans (Nat.add_le_add_left ?_ _)
  rw [List.map_map]
  exact total_sublist filter_sublist

/-- A change of the queue that leaves no more to claim. -/
structure Spent (κ : Slot K) (q q' : Queue K) : Prop where
  grows : Queue.Grows q q'
  le : allowance κ q' ≤ allowance κ q

theorem Spent.refl (q : Queue K) : Spent κ q q := ⟨.refl q, Nat.le_refl _⟩

theorem Spent.trans (h : Spent κ q q') (h' : Spent κ q' q'') : Spent κ q q'' :=
  ⟨h.grows.trans h'.grows, h'.le.trans h.le⟩

theorem spent_finish {dead : Bool} (h : tryFinish db id dead = some q) : Spent κ db.queue q := by
  rw [(tryFinish_some h).2]
  refine ⟨(keeps_finish _ id dead).grows, ?_⟩
  cases dead <;> exact total_sublist filter_sublist

/-- With backoff a job goes back while it has attempts left. -/
theorem spent_release (q : Queue K) (id : Nat) : Spent κ q (release q id true) := by
  refine ⟨(keeps_release q id true).grows, (allowance_unclaimJobs _ _ _).trans ?_⟩
  refine (total_le (g := worth) fun j hj _ => ?_).trans (total_sublist filter_sublist)
  obtain ⟨-, ha⟩ := Queue.mem_deleteJobs.mp hj
  split
  · rename_i hid
    rw [hid, Bool.true_and, decide_eq_false_iff_not] at ha
    unfold worth
    simp only [maxAttempts, Bool.false_eq_true, if_false] at ha ⊢
    split <;> omega
  · exact Nat.le_refl _

theorem spent_tryRelease (h : tryRelease db id true = some q) : Spent κ db.queue q := by
  rw [(tryRelease_some h).2]
  exact spent_release _ id

/-- A refund of another slot's job. -/
theorem spent_refund (h : ∀ j ∈ db.queue.jobs, j.id = id → j.slot ≠ κ)
    (hr : tryRelease db id false = some q) : Spent κ db.queue q := by
  rw [(tryRelease_some hr).2]
  refine ⟨(keeps_release _ id false).grows, (allowance_unclaimJobs _ _ _).trans ?_⟩
  refine total_le fun j hj hs => ?_
  rw [if_neg fun hc => h j hj (by simpa using hc) hs]

theorem spent_writer [Inhabited P] {trg : Triggers K δ} {w : WriterAct K δ}
    (h : db.writer trg w = some db')
    (hq : ∀ x, w = .commit x → ∀ t, db.txns.get x = some t → κ ∉ t.own) :
    Spent κ db.queue db'.queue := by
  refine ⟨grows_writer h, ?_⟩
  rcases writer_cases h with ⟨-, rfl⟩ | ⟨x, st, t, -, -, -, -, rfl⟩ | ⟨x, t, rfl, ht, rfl⟩ |
    ⟨x, t, -, -, rfl⟩
  · exact Nat.le_refl _
  · exact Nat.le_refl _
  · refine (allowance_insertAll _ _).trans ?_
    have hzero : ((t.own.map fun s => (s, 0)).map fun p =>
        if p.1 = κ then max 1 (maxAttempts - p.2) else 0).sum = 0 := by
      refine sum_eq_zero fun n hn => ?_
      simp only [List.map_map, List.mem_map, Function.comp_apply] at hn
      obtain ⟨s, hs, rfl⟩ := hn
      exact if_neg fun e : s = κ => hq x rfl t ht (e ▸ hs)
    rw [hzero]
    exact total_sublist filter_sublist
  · exact Nat.le_refl _

end Allowance

/-! ## 3. Claims and write-backs -/

section Steps

variable {U : Outage.Setup δ X} {κ : Slot K} {db db' : Db K δ P} {q' : Queue K} {ids : List Nat}
  {read : Slot K → Option (Option X × ν)} {items : List (Item K X ν)}

/-- A claim takes one from the allowance for each job, and the budget gives it back. -/
theorem allowance_claimJobs
    (h : claimJobs U.bytes U.batchSize U.recursive read db ids = some (q', items)) :
    hits κ db.queue ids + allowance κ q' ≤
      hits κ db.queue (overBudget U read db.queue ids) + allowance κ db.queue := by
  have hsel := (claimJobs_spec h).selected
  have hin : ∀ i ∈ overBudget U read db.queue ids, i ∈ ids := by
    intro i hi
    obtain ⟨c, hc, rfl⟩ := List.mem_map.mp hi
    obtain ⟨⟨c, f⟩, hf, rfl⟩ := List.mem_map.mp hc
    simpa using (mem_filter.mp (mem_claimLoop (mem_filter.mp hf).1).1).2
  unfold claimJobs at h
  simp only [ite_none_right_eq_some, Option.some.injEq, Prod.mk.injEq] at h
  obtain ⟨-, rfl, -⟩ := h
  refine (Nat.add_le_add_left ((allowance_unclaimJobs _ _ _).trans
    (total_sublist filter_sublist)) _).trans ?_
  change _ + total κ (fun j => if (overBudget U read db.queue ids).contains j.id then _ else _)
    (db.queue.jobs.map (Queue.claimJob _)) ≤ _
  rw [total_map, hits, hits, allowance, ← total_add, ← total_add]
  refine total_le fun j hj _ => ?_
  simp only [Queue.claimJob_id]
  by_cases hi : j.id ∈ ids
  · have hc : Queue.claimJob (fun j => ids.contains j.id) j =
        { j with claimed := true, attempts := j.attempts + 1 } := by
      simp [Queue.claimJob, (hsel j hj hi).1, hi]
    rw [hc, contains_iff_mem.mpr hi]
    cases (overBudget U read db.queue ids).contains j.id <;>
      simp [worth, (hsel j hj hi).1, maxAttempts]
    omega
  · have hc : Queue.claimJob (fun j => ids.contains j.id) j = j := by
      simp [Queue.claimJob, hi]
    have hover : j.id ∉ overBudget U read db.queue ids := fun ho => hi (hin _ ho)
    rw [hc]
    simp [hi, hover]

variable [DecidableEq ν] {it : Item K X ν} {a : Managed.Answer} {current : Option ν}
  {blocked : Bool}
  {w : Option (Option Unit)}

theorem spent_writeBackOne
    (hf : ∀ j ∈ db.queue.jobs, j.id = it.id → j.slot = κ → ∀ v ∈ it.version, current = some v)
    (h : writeBackOne Outage.blind db false current blocked it a = some (q', w)) :
    Spent κ db.queue q' := by
  rcases Outage.writeBackOne_why h with rfl | ⟨dead, hq, -⟩ | ⟨backoff, hq, hb⟩
  · exact .refl _
  · exact spent_finish hq
  · cases backoff with
    | true => exact spent_tryRelease hq
    | false =>
      obtain ⟨v, hv, hne⟩ := (hb rfl).resolve_left Bool.false_ne_true
      exact spent_refund (fun j hj hid hs => hne (hf j hj hid hs v hv)) hq

theorem spent_expire (h : expire db ids = some db') : Spent κ db.queue db'.queue :=
  expire_invariant (I := fun d => Spent κ db.queue d.queue)
    (fun d id hI _ => hI.trans (spent_release d.queue id)) (.refl _) h

end Steps

/-! ## 4. Whole runs -/

/-- `A` is what the jobs of the slot had left at the start. -/
structure Inv (κ : Slot K) (A : Nat) (s : Sys K δ P X ν) : Prop where
  flight : Flight s.db.queue s.batch
  bound : s.claims + allowance κ s.db.queue ≤ s.deferred + A

section Runs

variable {U : Outage.Setup δ X} {κ : Slot K} {A : Nat} {s s' : Sys K δ P X ν}

theorem Inv.spent (hI : Inv κ A s) {db : Db K δ P} {batch : List (Item K X ν)}
    (h : Spent κ s.db.queue db.queue) (hin : ∀ it ∈ batch, it ∈ s.batch) :
    Inv κ A { s with db, batch } where
  flight := hI.flight.grows h.grows hin
  bound := (Nat.add_le_add_left h.le _).trans hI.bound

theorem Inv.step [DecidableEq δ] [DecidableEq ν] [Inhabited P] (hI : Inv κ A s)
    {a : Act K δ X ν} (hq : quiet κ s a = true) (hf : found κ s a = true)
    (h : s.step U κ a = some s') : Inv κ A s' := by
  cases a with
  | writer w =>
    obtain ⟨db, hw, rfl⟩ := map_eq_some_iff.mp h
    refine hI.spent (spent_writer hw fun x e t ht => ?_) fun _ h => h
    simpa [e, quiet, ht] using hq
  | crash =>
    cases h
    exact hI.spent (.refl _) fun _ h => by cases h
  | expire ids =>
    simp only [Sys.step, ite_none_right_eq_some] at h
    obtain ⟨db, hdb, rfl⟩ := map_eq_some_iff.mp h.2
    exact hI.spent (spent_expire hdb) fun _ h => h
  | claim ids read =>
    simp only [Sys.step, ite_none_right_eq_some] at h
    obtain ⟨c, hc, rfl⟩ := map_eq_some_iff.mp h.2
    refine ⟨(claimJobs_spec hc).flight, ?_⟩
    have ha := allowance_claimJobs (κ := κ) hc
    have hb := hI.bound
    show s.claims + _ + allowance κ c.1 ≤ s.deferred + _ + A
    omega
  | writeBack outcome seen =>
    obtain ⟨db, hdb, rfl⟩ := map_eq_some_iff.mp h
    refine hI.spent ?_ fun _ h => by cases h
    refine Outage.writeBack_invariant (I := fun d => Spent κ s.db.queue d.queue)
      (fun a ha d q w hd hone => hd.trans (spent_writeBackOne ?_ hone)) (.refl _) hdb
    obtain ⟨it, hit, rfl⟩ := List.mem_map.mp ha
    intro j hj hid hs v hv
    -- the job is the item's, so the item is of the slot
    obtain ⟨-, hpk, hch⟩ := (hI.flight.grows hd.grows fun _ h => h).claimed j hj it hit hid.symm
    have hfit := List.all_eq_true.mp hf it hit
    rw [← hpk, ← hch, hs, decide_eq_true ⟨rfl, rfl⟩, mem_def.mp hv] at hfit
    exact eq_of_beq hfit
  | release id =>
    simp only [Sys.step, ite_none_right_eq_some] at h
    obtain ⟨queue, hq, rfl⟩ := map_eq_some_iff.mp h.2
    exact hI.spent (spent_tryRelease hq) fun _ => mem_of_mem_filter

theorem total_const (n : Nat) (js : List (Job K)) :
    total κ (fun _ => n) js = n * js.countP fun j => decide (j.slot = κ) := by
  induction js with
  | nil => rfl
  | cons j js ih =>
    rw [total, map_cons, sum_cons, countP_cons, Nat.mul_add, ← ih, Nat.add_comm]
    by_cases h : j.slot = κ <;> simp [h, total]

/-- **Five claims for each job**: in every run in which nothing enqueues the slot and its writes
    find the version that was read, the claims of the slot that the byte budget did not release are
    at most five for each job it had at the start; when they are as many, its jobs are claimed for
    the last time, so that they can only be finished or go to `jobs_dead`. -/
theorem claims_bounded [DecidableEq δ] [DecidableEq ν] [Inhabited P] (U : Outage.Setup δ X)
    (κ : Slot K) (s₀ s : Sys K δ P X ν) (hb : s₀.batch = []) (hc : s₀.claims = s₀.deferred)
    (h : Reach (Sys.step U κ) (fun s a => quiet κ s a = true ∧ found κ s a = true) s₀ s) :
    let most := s.deferred + maxAttempts * s₀.db.queue.jobs.countP fun j => decide (j.slot = κ)
    s.claims ≤ most ∧ (s.claims = most → ∀ j ∈ s.db.queue.jobs, j.slot = κ →
      j.claimed = true ∧ maxAttempts ≤ j.attempts) := by
  intro most
  have hstart : Inv κ (total κ (fun _ => maxAttempts) s₀.db.queue.jobs) s₀ := by
    refine ⟨hb ▸ flight_nil _, ?_⟩
    rw [hc]
    refine Nat.add_le_add_left (total_le fun j _ _ => ?_) _
    unfold worth
    split <;> simp [maxAttempts]
  have hI := h.invariant hstart fun s a s' hI hc hs => hI.step hc.1 hc.2 hs
  have hle := hI.bound
  rw [total_const] at hle
  refine ⟨(Nat.le_add_right _ _).trans hle, fun e j hj hs => ?_⟩
  have hzero : allowance κ s.db.queue = 0 := by omega
  have hj' : worth j ≤ allowance κ s.db.queue :=
    le_sum_of_mem (List.mem_map.mpr ⟨j, hj, if_pos hs⟩)
  rw [hzero, worth] at hj'
  split at hj'
  · exact ⟨‹_›, by omega⟩
  · omega

end Runs

/-! ## 5. A write that finds another version -/

section Examples

abbrev SmallSys := Sys Nat (Option Nat) (Option Nat) Nat Nat

def theSlot : Slot Nat := ⟨1, .embed, none⟩

/-- One job of the slot, pending. -/
def oneJob : SmallSys :=
  ⟨⟨.empty, Queue.empty.insertPending theSlot 0, .empty, 0⟩, [], 0, 0⟩

/-- The job that is there is claimed and written back, time after time; between the two its row gets
    `changes` new versions, and the table rejects the write or not. -/
def rounds (changes : Nat) (rejected : Bool) (n : Nat) : List (Act Nat (Option Nat) Nat Nat) :=
  (range n).flatMap fun i => [.claim [i] fun _ => some (some 10, i * changes),
    .writeBack (fun _ => .vector) fun _ => ⟨some ((i + 1) * changes), false, rejected⟩]

/-- **A refund at every claim**: another column of the row is changed before every write. The job is
    claimed six times, and is pending with no attempt counted. -/
theorem claimed_again : ∃ s : SmallSys,
    Reach (Sys.step Outage.smallSetup theSlot) (fun s a => quiet theSlot s a = true) oneJob s ∧
    s.claims = 6 ∧ s.deferred = 0 ∧
    ∃ j ∈ s.db.queue.jobs, j.slot = theSlot ∧ j.claimed = false ∧ j.attempts = 0 := by
  have h : (runWhile (Sys.step Outage.smallSetup theSlot)
    (fun s a => quiet theSlot s a = true) oneJob
      (rounds 1 false 6)).any (fun s => decide (s.claims = 6 ∧ s.deferred = 0 ∧
        ∃ j ∈ s.db.queue.jobs, j.slot = theSlot ∧ j.claimed = false ∧ j.attempts = 0)) = true := by
    decide +kernel
  obtain ⟨s, hs, hp⟩ := Reach.exists_of_runWhile h
  exact ⟨s, hs, of_decide_eq_true hp⟩

/-- Rejected writes cost an attempt each: after five claims the slot has no job. -/
theorem claimed_five_times : ∃ s : SmallSys,
    Reach (Sys.step Outage.smallSetup theSlot)
      (fun s a => quiet theSlot s a = true ∧ found theSlot s a = true) oneJob s ∧
    (s.claims = 5 ∧ s.db.queue.jobs = []) ∧ s.claims ≤ s.deferred + 5 * 1 := by
  have h : (runWhile (Sys.step Outage.smallSetup theSlot)
      (fun s a => quiet theSlot s a = true ∧ found theSlot s a = true) oneJob
      (rounds 0 true 5)).any (fun s => decide (s.claims = 5 ∧ s.db.queue.jobs = [])) = true := by
    decide +kernel
  obtain ⟨s, hs, hp⟩ := Reach.exists_of_runWhile h
  exact ⟨s, hs, of_decide_eq_true hp, (claims_bounded Outage.smallSetup theSlot oneJob s rfl
    rfl hs).1⟩

end Examples

end Postvec.Delivery
