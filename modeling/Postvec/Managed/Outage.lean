import Postvec.Managed.Column
import Postvec.Managed.Inference

/-!
# Outages: what they may do to the queue and to migrations

The leader's loop on one entry, with the fleet it asks. A node may be unreachable, or slow, at any
refresh and at any request; a node that answers a request succeeds (`Fleet`).

* `reaches`: the node a batch needs was reached by the last refresh. Where it was not, the model is
  unknown to the leader, and that error is a permanent one.
* **`outage_waits`**: in every run whose batches meet `reaches`, no job is dead before its fifth
  claim, and no migration has failed.
* `outage_kills`: without it, one refresh during an outage is enough for both.

What the tables hold does not matter here: what a claim reads, whether a write finds its row and
whether the table rejects it are chosen by the run. `attempts` counts the claims of a job that were
not refunded. The guards that end a job or a migration for a reason of its own are part of the
machine (`guarded`): a malformed job, a text over the cap, a document the splitter refuses, a
constraint of the user's table, a quarantined entry.
-/

namespace Postvec.Outage

open Machine Managed Inference List Option

/-! ## 1. The fleet -/

/-- The nodes, what they hold and what they answer; `salt` stands for anything else an answer
    depends on. -/
structure Fleet (X V : Type*) where
  inventory : Nat → List Discovery.ModelInfo
  timeout : Nat
  timeout_pos : 0 < timeout
  width : V → Nat
  finite : V → Bool
  answer : (node salt dim : Nat) → List X → List V
  answer_length : ∀ node salt dim range, (answer node salt dim range).length = range.length
  answer_fits : ∀ node salt dim range, ∀ v ∈ answer node salt dim range,
    width v = dim ∧ finite v = true

/-- The widths the database has for the spaces at a refresh; the fleet is consistent with them. -/
abbrev Agreed {X V : Type*} (F : Fleet X V) :=
  { known : Discovery.Known // Consistent F.inventory known }

/-- The nodes at one request. -/
structure Contact where
  start : Nat
  up : Nat → Bool
  took : Nat → Nat
  salt : Nat

variable {K δ P X V ν : Type*}

def Fleet.column (F : Fleet X V) (dim : Nat) : Inference.Column V := ⟨F.width, F.finite, dim⟩

def Fleet.call (F : Fleet X V) (dim : Nat) (c : Contact) : Call X V where
  start := c.start
  reply := fun node range =>
    ⟨c.took node, if c.up node then .rows (some (F.answer node c.salt dim range)) else .status none⟩

/-- A batch sent to the fleet. -/
def Fleet.ask (F : Fleet X V) (c : Client) (contacts : Nat → Contact) (dim : Nat) (target : Target)
    (payload : List X) : List (Inference.Outcome V) :=
  infer c F.timeout (fun n => F.call dim (contacts n)) (F.column dim) target payload

/-! ## 2. The leader's state -/

/-- The entry: what its triggers watch, its kind, and the settings of its batches. -/
structure Setup (δ X : Type*) where
  source : δ → Option X
  recursive : Bool
  mode : TriggerMode
  bytes : X → Nat
  batchSize : Nat

/-- `Routing`, as far as inference reads it. -/
structure Routing where
  model : Text
  space : Option Text
  dim : Nat
deriving DecidableEq

/-- A row of `postvec.migrations`; `converter` is the one of a `direct` migration. -/
structure Migration (K : Type*) where
  id : Nat
  model : Text
  space : Option Text
  converter : Option Text
  dim : Nat
  state : MigState
  lastPk : Option K
deriving DecidableEq

/-- What a migration's batches ask the fleet for. -/
def Migration.target (m : Migration K) : Target :=
  match m.converter with
  | none => .embed m.model m.space
  | some c => .converter c

def Routing.target (r : Routing) : Target := .embed r.model r.space

/-- A batch of a migration that was read: what is sent for each key, if anything is. -/
structure Drive (K X : Type*) where
  migration : Migration K
  rows : List (K × Option X)

structure Sys (K δ P X ν : Type*) where
  db : Db K δ P
  /-- none from the start of a session to its first refresh -/
  client : Option Client
  batch : Option (Routing × List (Item K X ν))
  migrations : List (Migration K)
  drive : Option (Drive K X)

/-- What `write_back` finds for an item. -/
structure Seen (ν : Type*) where
  current : Option ν
  blocked : Bool
  rejected : Bool

inductive Act (F : Fleet X V) (K δ ν : Type*) where
  | writer (w : WriterAct K δ)
  /-- the jobs `local` inserts and finishes, and a refresh job it refuses -/
  | insertJobs (slots : List (Slot K))
  | deleteJobs (ids : List Nat)
  | refuse (id : Nat)
  /-- a step ends in an error, or finds its entry disabled -/
  | lose
  /-- the leader is lost, another session takes over -/
  | takeOver
  | refresh (here : Nat) (answered : List Nat) (known : Agreed F)
  | expire (ids : List Nat)
  | claim (r : Routing) (ids : List Nat) (read : Slot K → Option (Option X × ν))
  | writeBack (contacts : Nat → Contact) (changed : Bool) (seen : Item K X ν → Seen ν)
  /-- a batch that was rejected as a whole -/
  | release (id : Nat)
  /-- `migrate()`, and the verbs that end a migration -/
  | migrate (m : Migration K)
  | endMigration (id : Nat) (aborted : Bool)
  | readBatch (id : Nat) (rows : List (K × Option X)) (backfilling : Bool)
  | writeBatch (contacts : Nat → Contact) (changed : Bool) (affected : K → Bool)
      (error : Option Bool)
  | quarantine

variable [DecidableEq K]

/-! ## 3. The embed step -/

/-- `write_back` reads of an outcome only its kind here: the vector does not reach the queue. -/
def kind : Inference.Outcome V → Managed.Outcome
  | .vector _ => .vector
  | .retry => .retry
  | .dead => .dead
  | .failed => .failed

def blind : Model X Unit := ⟨fun _ => (), fun _ => 0, 0⟩

/-- The outcomes, each with its job; a job without a text takes none. -/
def paired : List (Item K X ν) → List (Inference.Outcome V) →
    Option (List (Item K X ν × Managed.Outcome))
  | [], _ => some []
  | it :: its, os =>
    match it.text, os with
    | none, os => (paired its os).map ((it, .vector) :: ·)
    | some _, [] => none
    | some _, o :: os => (paired its os).map ((it, kind o) :: ·)

/-- `write_back` over the jobs and their outcomes. -/
def writeBack [DecidableEq ν] (changed : Bool) (seen : Item K X ν → Seen ν) (db : Db K δ P) :
    List (Item K X ν × Managed.Outcome) → Option (Db K δ P)
  | [] => some db
  | (it, o) :: rest =>
    match writeBackOne blind db changed (seen it).current (seen it).blocked it
        ⟨o, (seen it).rejected⟩ with
    | none => none
    | some (queue, _) => writeBack changed seen { db with queue } rest

/-! ## 4. The batches of a migration -/

/-- The loop over the rows of a batch: whether the migration has failed, and the watermark. -/
def driveLoop (affected : K → Bool) : List (K × Option X) → List (Inference.Outcome V) →
    Option K → Bool × Option K
  | [], _, mark => (false, mark)
  | (k, none) :: rows, os, _ => driveLoop affected rows os (some k)
  | (k, some _) :: rows, [], _ => driveLoop affected rows [] (some k)
  | (k, some _) :: rows, o :: os, mark =>
    match o with
    | .vector _ => if affected k then driveLoop affected rows os (some k) else (false, mark)
    | .retry => (false, mark)
    | .failed => (true, mark)
    | .dead => driveLoop affected rows os (some k)

def updateMigration (id : Nat) (f : Migration K → Migration K) (ms : List (Migration K)) :
    List (Migration K) :=
  ms.map fun m => if m.id = id then f m else m

/-- The write of a batch, if the migration is still where it was read: the loop, or what an error of
    the table makes of it (`some true` for a constraint violation). -/
def writeDrive (m : Migration K) (changed : Bool) (error : Option Bool)
    (result : Bool × Option K) (ms : List (Migration K)) : List (Migration K) :=
  if !(ms.any fun m' => decide (m'.id = m.id ∧ m'.state = .running ∧ m'.lastPk = m.lastPk)) then ms
  else
    match error with
    | some violation =>
      if violation then updateMigration m.id (fun m => { m with state := .failed }) ms else ms
    | none =>
      if changed then ms
      else updateMigration m.id (fun m => { m with
        state := if result.1 then .failed else m.state, lastPk := result.2 }) ms

/-! ## 5. The machine -/

/-- The leader between two of its transactions, with nothing in memory. -/
def Sys.idle (s : Sys K δ P X ν) : Bool := s.batch.isNone && s.drive.isNone

def Sys.step [DecidableEq δ] [DecidableEq ν] [Inhabited P] (F : Fleet X V) (U : Setup δ X)
    (s : Sys K δ P X ν) : Act F K δ ν → Option (Sys K δ P X ν)
  | .writer w =>
    (s.db.writer (triggers U.source U.recursive U.mode) w).map fun db => { s with db }
  | .insertJobs slots =>
    if slots.any s.db.slotLocked then none
    else some { s with
      db := { s.db with queue := s.db.queue.insertAll (slots.map fun x => (x, 0)) } }
  | .deleteJobs ids =>
    if ids.any s.db.jobLocked then none
    else some { s with
      db := { s.db with queue := s.db.queue.deleteJobs fun j => ids.contains j.id } }
  | .refuse id => (tryFinish s.db id true).map fun queue => { s with db := { s.db with queue } }
  | .lose => some { s with batch := none, drive := none }
  | .takeOver => some { s with client := none, batch := none, drive := none }
  | .refresh here answered known =>
    if s.idle then
      some { s with client := some (Inference.refresh F.inventory here answered known.1) }
    else none
  | .expire ids =>
    if s.client.isSome && s.idle &&
        ids.all fun i => s.db.queue.jobs.any fun j => decide (j.id = i) && j.claimed then
      (expire s.db ids).map fun db => { s with db }
    else none
  | .claim r ids read =>
    if s.client.isSome && s.idle then
      (claimJobs U.bytes U.batchSize U.recursive read s.db ids).map fun c =>
        { s with db := { s.db with queue := c.1 }, batch := some (r, c.2) }
    else none
  | .writeBack contacts changed seen =>
    match s.client, s.batch with
    | some c, some (r, items) =>
      let outcomes := F.ask c contacts r.dim r.target (items.filterMap Item.text)
      (paired items outcomes).bind fun answers =>
        (writeBack changed seen s.db answers).map fun db => { s with db, batch := none }
    | _, _ => none
  | .release id =>
    match s.batch with
    | some (r, items) =>
      if items.any fun it => it.id == id then
        (tryRelease s.db id true).map fun queue =>
          { s with
            db := { s.db with queue }
            batch := some (r, items.filter fun it => it.id != id) }
      else none
    | none => none
  | .migrate m =>
    if m.state = .running ∧ ∀ m' ∈ s.migrations, m'.id < m.id then
      some { s with migrations := s.migrations ++ [m] }
    else none
  | .endMigration id aborted =>
    some { s with migrations := updateMigration id (fun m => { m with
      state := if aborted then .aborted else .done }) s.migrations }
  | .readBatch id rows backfilling =>
    match s.migrations.find? fun m => decide (m.id = id ∧ m.state = .running) with
    | none => none
    | some m =>
      if !(s.client.isSome && s.idle) then none
      else if !rows.isEmpty then some { s with drive := some ⟨m, rows⟩ }
      else if !s.db.queue.jobs.isEmpty || backfilling then some s
      else some { s with migrations := updateMigration id (fun m => { m with
        state := .awaitingFinalize }) s.migrations }
  | .writeBatch contacts changed affected error =>
    match s.client, s.drive with
    | some c, some d =>
      let outcomes := F.ask c contacts d.migration.dim d.migration.target
        (d.rows.filterMap Prod.snd)
      some { s with
        migrations := writeDrive d.migration changed error
          (driveLoop affected d.rows outcomes d.migration.lastPk) s.migrations
        drive := none }
    | _, _ => none
  | .quarantine =>
    some { s with
      db := { s.db with queue := s.db.queue.deleteJobs fun _ => true }
      migrations := s.migrations.map fun m =>
        if m.state = .running ∨ m.state = .awaitingFinalize then { m with state := .failed }
        else m }

/-! ## 6. The condition -/

section Condition

variable {F : Fleet X V}

/-- The last refresh reached a node that holds the target. -/
def heldBy (F : Fleet X V) (c : Client) (target : Target) : Bool :=
  c.nodes.any fun n => holds target (F.inventory n.1)

/-- What a batch asks for is held by a node the last refresh reached. -/
def reaches (s : Sys K δ P X ν) : Act F K δ ν → Bool
  | .writeBack .. => s.client.all fun c => s.batch.all fun b => heldBy F c b.1.target
  | .writeBatch .. => s.client.all fun c => s.drive.all fun d => heldBy F c d.migration.target
  | _ => true

/-- No guard that has nothing to do with the fleet ends a job or the migration: the jobs claimed are
    well formed and their texts within the cap, the splitter refuses no document, no constraint of
    the table is violated, and the entry is not quarantined. -/
def guarded (U : Setup δ X) (s : Sys K δ P X ν) : Act F K δ ν → Bool
  | .claim _ ids read => s.db.queue.jobs.all fun j =>
    !ids.contains j.id || decide (U.recursive = j.slot.chunk.isSome) &&
      ((read j.slot).bind Prod.fst).all fun t => decide (U.bytes t ≤ itemCap)
  | .refuse _ => false
  | .quarantine => false
  | .writeBatch _ _ _ error => error != some true
  | _ => true

end Condition

/-! ## 7. The queue's dead -/

/-- Nothing dies before its fifth claim. -/
def Spares (q q' : Queue K) : Prop := ∀ d ∈ q'.dead, d ∈ q.dead ∨ maxAttempts ≤ d.attempts

section Dead

variable {db db' : Db K δ P} {q q' q'' : Queue K}

omit [DecidableEq K] in
theorem Spares.of_eq (h : q'.dead = q.dead) : Spares q q' := fun _ hd => .inl (h ▸ hd)

omit [DecidableEq K] in
theorem Spares.trans (h : Spares q q') (h' : Spares q' q'') : Spares q q'' := by
  intro d hd
  rcases h' d hd with hd | ha
  · exact h d hd
  · exact .inr ha

theorem spares_release (q : Queue K) (id : Nat) (backoff : Bool) :
    Spares q (release q id backoff) := by
  cases backoff with
  | false => exact .of_eq (Queue.dead_unclaimJobs q [id] true)
  | true =>
    intro d hd
    change d ∈ (releaseJobs q _ [id]).dead at hd
    rw [releaseJobs, Queue.dead_unclaimJobs, Queue.mem_dead_moveToDead] at hd
    refine hd.imp_right fun h => ?_
    have := of_decide_eq_true (Bool.and_eq_true _ _ ▸ h.2).2
    simp only [maxAttempts] at this ⊢
    omega

theorem spares_tryRelease {id : Nat} {backoff : Bool} (h : tryRelease db id backoff = some q) :
    Spares db.queue q := by
  rw [(tryRelease_some h).2]
  exact spares_release _ _ _

omit [DecidableEq K] in
theorem spares_finish {id : Nat} (h : tryFinish db id false = some q) : Spares db.queue q := by
  rw [(tryFinish_some h).2]
  exact .of_eq (Queue.dead_deleteJobs db.queue _)

theorem spares_expire {ids : List Nat} (h : expire db ids = some db') :
    Spares db.queue db'.queue :=
  expire_invariant (I := fun d => Spares db.queue d.queue)
    (fun d id hI _ => hI.trans (spares_release d.queue id true)) (.of_eq rfl) h

theorem spares_writer [Inhabited P] {trg : Triggers K δ} {w : WriterAct K δ}
    (h : db.writer trg w = some db') : Spares db.queue db'.queue := by
  rcases writer_cases h with ⟨-, rfl⟩ | ⟨x, st, t, -, -, -, -, rfl⟩ | ⟨x, t, -, -, rfl⟩ |
    ⟨x, t, -, -, rfl⟩
  · exact .of_eq rfl
  · exact .of_eq rfl
  · intro d hd
    change d ∈ (t.commitQueue db.queue).dead at hd
    rw [Txn.commitQueue, Queue.dead_insertAll, Queue.mem_deleteDead] at hd
    exact .inl hd.1
  · exact .of_eq rfl

end Dead

section Claims

variable {bytes : X → Nat} {batchSize : Nat} {recursive : Bool}
  {read : Slot K → Option (Option X × ν)} {db : Db K δ P} {ids : List Nat} {q' : Queue K}
  {items : List (Item K X ν)}

/-- A claim of well-formed jobs buries none. -/
theorem spares_claimJobs (h : claimJobs bytes batchSize recursive read db ids = some (q', items))
    (hform : ∀ j ∈ db.queue.jobs, j.id ∈ ids → recursive = j.slot.chunk.isSome) :
    Spares db.queue q' := by
  unfold claimJobs at h
  simp only [ite_none_right_eq_some, Option.some.injEq, Prod.mk.injEq] at h
  obtain ⟨-, rfl, -⟩ := h
  intro d hd
  rw [Queue.dead_unclaimJobs, Queue.mem_dead_moveToDead, Queue.dead_claim] at hd
  refine .inl (hd.resolve_right ?_)
  rintro ⟨hd, hbad⟩
  obtain ⟨⟨c, f⟩, hf, hid⟩ := List.mem_map.mp (contains_iff_mem.mp hbad)
  obtain ⟨hf, hmal⟩ := mem_filter.mp hf
  cases f with
  | overBudget | taken => cases hmal
  | malformed =>
    obtain ⟨hc, hr, -⟩ := mem_claimLoop hf
    obtain ⟨hc, hin⟩ := mem_filter.mp hc
    obtain ⟨j, hj, rfl⟩ := Queue.mem_claim.mp hc
    rw [Queue.claimJob_slot] at hr
    exact hr rfl (hform j hj (by simpa using hin))

end Claims

section WriteBack

variable [DecidableEq ν] {db db' : Db K δ P} {changed : Bool} {it : Item K X ν}

omit [DecidableEq K] [DecidableEq ν] in
/-- A job within the cap whose outcome is a vector or a retry is not ended dead. -/
theorem ending_ne_dead {q : Queue K} {o : Managed.Outcome} (hov : it.oversized = false)
    (ho : o = .vector ∨ o = .retry) : ending blind q changed it o ≠ .dead := by
  unfold ending
  rw [hov]
  split
  · simp
  split
  · simp
  cases it.text with
  | none => simp
  | some t => rcases ho with rfl | rfl <;> simp [blind]

omit [DecidableEq K] [DecidableEq ν] in
/-- An attempt is refunded before the write only if the routing has changed. -/
theorem ending_release {q : Queue K} {o : Managed.Outcome}
    (h : ending blind q changed it o = .release false) : changed = true := by
  unfold ending at h
  split at h
  · cases h
  split at h
  · assumption
  split at h
  · cases h
  cases ht : it.text with
  | none => simp [ht] at h
  | some t => cases o <;> simp [ht, blind] at h

/-- How a job ends, and why it is ended dead or its claim refunded. -/
theorem writeBackOne_why {current : Option ν} {blocked : Bool} {a : Managed.Answer} {q' : Queue K}
    {w : Option (Option Unit)}
    (h : writeBackOne blind db changed current blocked it a = some (q', w)) :
    q' = db.queue ∨
    (∃ dead, tryFinish db it.id dead = some q' ∧
      (dead = true → ending blind db.queue changed it a.outcome = .dead)) ∨
    ∃ backoff, tryRelease db it.id backoff = some q' ∧
      (backoff = false → changed = true ∨ ∃ v, it.version = some v ∧ current ≠ some v) := by
  unfold writeBackOne at h
  split at h
  · cases h
    exact .inl rfl
  · rename_i hend
    obtain ⟨q, hq, e⟩ := map_eq_some_iff.mp h
    cases e
    exact .inr (.inl ⟨true, hq, fun _ => hend⟩)
  · rename_i backoff hend
    obtain ⟨q, hq, e⟩ := map_eq_some_iff.mp h
    cases e
    refine .inr (.inr ⟨backoff, hq, fun hb => .inl ?_⟩)
    subst hb
    exact ending_release hend
  · split at h
    · obtain ⟨q, hq, e⟩ := map_eq_some_iff.mp h
      cases e
      exact .inr (.inl ⟨false, hq, fun e => by cases e⟩)
    · rename_i v hv
      split at h
      · rename_i hne
        obtain ⟨q, hq, e⟩ := map_eq_some_iff.mp h
        cases e
        exact .inr (.inr ⟨false, hq, fun _ => .inr ⟨v, hv, hne⟩⟩)
      · split at h
        · obtain ⟨q, hq, e⟩ := map_eq_some_iff.mp h
          cases e
          exact .inr (.inr ⟨true, hq, fun e => by cases e⟩)
        · split at h
          · cases h
          · obtain ⟨q, hq, e⟩ := map_eq_some_iff.mp h
            cases e
            exact .inr (.inl ⟨false, hq, fun e => by cases e⟩)

theorem spares_writeBackOne {current : Option ν} {blocked : Bool} {a : Managed.Answer}
    {q' : Queue K} {w : Option (Option Unit)} (hov : it.oversized = false)
    (ho : a.outcome = .vector ∨ a.outcome = .retry)
    (h : writeBackOne blind db changed current blocked it a = some (q', w)) :
    Spares db.queue q' := by
  rcases writeBackOne_why h with rfl | ⟨dead, hq, hd⟩ | ⟨backoff, hq, -⟩
  · exact .of_eq rfl
  · cases dead with
    | false => exact spares_finish hq
    | true => exact absurd (hd rfl) (ending_ne_dead hov ho)
  · exact spares_tryRelease hq

/-- What every item of a write-back keeps, the whole keeps. -/
theorem writeBack_invariant {I : Db K δ P → Prop} {seen : Item K X ν → Seen ν} :
    ∀ {answers : List (Item K X ν × Managed.Outcome)} {db db' : Db K δ P},
      (∀ a ∈ answers, ∀ db queue w, I db → writeBackOne blind db changed (seen a.1).current
        (seen a.1).blocked a.1 ⟨a.2, (seen a.1).rejected⟩ = some (queue, w) →
          I { db with queue }) →
      I db → writeBack changed seen db answers = some db' → I db'
  | [], db, db', _, hI, h => by
    cases h
    exact hI
  | (it, o) :: rest, db, db', one, hI, h => by
    unfold writeBack at h
    split at h
    · cases h
    · rename_i queue w hone
      exact writeBack_invariant (fun a ha => one a (mem_cons_of_mem _ ha))
        (one (it, o) mem_cons_self db queue w hI hone) h

theorem spares_writeBack {seen : Item K X ν → Seen ν}
    {answers : List (Item K X ν × Managed.Outcome)}
    (hall : ∀ a ∈ answers, a.1.oversized = false ∧ (a.2 = .vector ∨ a.2 = .retry))
    (h : writeBack changed seen db answers = some db') : Spares db.queue db'.queue :=
  writeBack_invariant (I := fun d => Spares db.queue d.queue) (fun a ha _ _ _ hI hone =>
    hI.trans (spares_writeBackOne (hall a ha).1 (hall a ha).2 hone)) (.of_eq rfl) h

end WriteBack

omit [DecidableEq K] in
/-- Outcomes that wait stay so with their jobs. -/
theorem paired_waits : ∀ {items : List (Item K X ν)} {os : List (Inference.Outcome V)}
    {answers : List (Item K X ν × Managed.Outcome)}, (∀ o ∈ os, o.Waits) →
    paired items os = some answers →
    ∀ a ∈ answers, a.1 ∈ items ∧ (a.2 = .vector ∨ a.2 = .retry)
  | [], os, answers, _, h, a, ha => by
    cases h
    cases ha
  | it :: its, os, answers, hos, h, a, ha => by
    unfold paired at h
    split at h
    · obtain ⟨rest, hrest, rfl⟩ := map_eq_some_iff.mp h
      rcases mem_cons.mp ha with rfl | ha
      · exact ⟨mem_cons_self, .inl rfl⟩
      · exact (paired_waits hos hrest a ha).imp_left fun h => mem_cons_of_mem it h
    · cases h
    · rename_i o os _
      obtain ⟨rest, hrest, rfl⟩ := map_eq_some_iff.mp h
      rcases mem_cons.mp ha with rfl | ha
      · refine ⟨mem_cons_self, ?_⟩
        cases o with
        | vector v => exact .inl rfl
        | retry => exact .inr rfl
        | dead | failed => exact (hos _ mem_cons_self).elim
      · exact (paired_waits (fun o ho => hos o (mem_cons_of_mem _ ho)) hrest a ha).imp_left
          fun h => mem_cons_of_mem it h

omit [DecidableEq K] in
/-- A batch whose outcomes wait does not fail its migration. -/
theorem driveLoop_waits {affected : K → Bool} : ∀ {rows : List (K × Option X)}
    {os : List (Inference.Outcome V)} {mark : Option K}, (∀ o ∈ os, o.Waits) →
    (driveLoop affected rows os mark).1 = false
  | [], _, _, _ => by rw [driveLoop]
  | (k, none) :: rows, os, mark, h => by
    rw [driveLoop]
    exact driveLoop_waits h
  | (k, some _) :: rows, [], mark, h => by
    rw [driveLoop]
    exact driveLoop_waits h
  | (k, some _) :: rows, o :: os, mark, h => by
    have hos : ∀ o ∈ os, o.Waits := fun o ho => h o (mem_cons_of_mem _ ho)
    cases o with
    | vector v =>
      rw [driveLoop]
      split
      · exact driveLoop_waits hos
      · rfl
    | retry => rw [driveLoop]
    | dead | failed => exact (h _ mem_cons_self).elim

/-! ## 8. Runs -/

/-- What an outage leaves alone: the dead had their five claims and no migration has failed. The
    leader's client is what a refresh of the fleet made, and its batch is within the cap. -/
structure Inv (F : Fleet X V) (s : Sys K δ P X ν) : Prop where
  dead : ∀ d ∈ s.db.queue.dead, maxAttempts ≤ d.attempts
  migrations : ∀ m ∈ s.migrations, m.state ≠ .failed
  client : ∀ c ∈ s.client, ∃ here answered, ∃ known : Agreed F,
    c = Inference.refresh F.inventory here answered known.1
  capped : ∀ b ∈ s.batch, ∀ it ∈ b.2, it.oversized = false

section Runs

variable {F : Fleet X V} {U : Setup δ X} {s s' : Sys K δ P X ν} {ms : List (Migration K)}
  {m : Migration K}

omit [DecidableEq K] in
theorem Inv.spares (hI : Inv F s) {db : Db K δ P} (h : Spares s.db.queue db.queue) :
    Inv F { s with db } :=
  { hI with dead := fun d hd => (h d hd).elim (hI.dead d) id }

/-- A batch for a target that a reached node holds waits. -/
theorem ask_waits {c : Client} (contacts : Nat → Contact) (dim : Nat) {target : Target}
    (hc : ∃ here answered, ∃ known : Agreed F,
      c = Inference.refresh F.inventory here answered known.1)
    (h : heldBy F c target = true) (payload : List X) :
    ∀ o ∈ F.ask c contacts dim target payload, o.Waits := by
  obtain ⟨here, answered, known, rfl⟩ := hc
  obtain ⟨n, hn, hh⟩ := List.any_eq_true.mp h
  rw [(refresh_spec here answered known.2).1] at hn
  obtain ⟨i, hi, rfl⟩ := List.mem_map.mp hn
  refine infer_waits known.2 hi hh F.timeout_pos (fun k node range => ?_) payload
  show Answer.Succeeds _ _ (if (contacts k).up node then _ else _)
  split
  · exact ⟨F.answer_length _ _ _ _, F.answer_fits _ _ _ _⟩
  · rfl

omit [DecidableEq K] in
theorem mem_updateMigration {id : Nat} {f : Migration K → Migration K}
    (h : m ∈ updateMigration id f ms) : ∃ m' ∈ ms, m = f m' ∨ m = m' := by
  obtain ⟨m', hm', e⟩ := List.mem_map.mp h
  refine ⟨m', hm', ?_⟩
  split at e
  · exact .inl e.symm
  · exact .inr e.symm

theorem writeDrive_spares {changed : Bool} {error : Option Bool}
    {result : Bool × Option K} (herr : error ≠ some true)
    (hres : result.1 = false) (hms : ∀ m ∈ ms, m.state ≠ .failed) :
    ∀ m' ∈ writeDrive m changed error result ms, m'.state ≠ .failed := by
  intro m' hm'
  unfold writeDrive at hm'
  split at hm'
  · exact hms m' hm'
  · split at hm'
    · rename_i violation
      cases violation with
      | false => exact hms m' hm'
      | true => exact absurd rfl herr
    · split at hm'
      · exact hms m' hm'
      · obtain ⟨m₀, hm₀, rfl | rfl⟩ := mem_updateMigration hm'
        · simpa [hres] using hms m₀ hm₀
        · exact hms m' hm₀

/-- Every step under the conditions keeps the invariant. -/
theorem Inv.step [DecidableEq δ] [DecidableEq ν] [Inhabited P] (hI : Inv F s) {a : Act F K δ ν}
    (hg : guarded U s a = true) (hr : reaches s a = true) (h : s.step F U a = some s') :
    Inv F s' := by
  cases a with
  | writer w =>
    obtain ⟨db, hw, rfl⟩ := map_eq_some_iff.mp h
    exact hI.spares (spares_writer hw)
  | insertJobs slots =>
    simp only [Sys.step, ite_none_left_eq_some, Option.some.injEq] at h
    rw [← h.2]
    exact hI.spares (.of_eq (Queue.dead_insertAll _ _))
  | deleteJobs ids =>
    simp only [Sys.step, ite_none_left_eq_some, Option.some.injEq] at h
    rw [← h.2]
    exact hI.spares (.of_eq rfl)
  | refuse id => cases hg
  | lose =>
    cases h
    exact { hI with capped := fun _ hb => by cases hb }
  | takeOver =>
    cases h
    exact { hI with
      client := fun _ hc => by cases hc
      capped := fun _ hb => by cases hb }
  | refresh here answered known =>
    simp only [Sys.step, ite_none_right_eq_some, Option.some.injEq] at h
    rw [← h.2]
    refine { hI with client := fun c hc => ⟨here, answered, known, ?_⟩ }
    cases hc
    rfl
  | expire ids =>
    simp only [Sys.step, ite_none_right_eq_some] at h
    obtain ⟨db, hdb, rfl⟩ := map_eq_some_iff.mp h.2
    exact hI.spares (spares_expire hdb)
  | claim r ids read =>
    simp only [Sys.step, ite_none_right_eq_some] at h
    obtain ⟨⟨q', items⟩, hc, rfl⟩ := map_eq_some_iff.mp h.2
    have hjob : ∀ j ∈ s.db.queue.jobs, j.id ∈ ids → U.recursive = j.slot.chunk.isSome ∧
        ∀ t ∈ (read j.slot).bind Prod.fst, U.bytes t ≤ itemCap := by
      intro j hj hid
      have hj' := List.all_eq_true.mp hg j hj
      rw [contains_iff_mem.mpr hid, Bool.not_true, Bool.false_or, Bool.and_eq_true,
        decide_eq_true_eq] at hj'
      refine ⟨hj'.1, fun t ht => ?_⟩
      have ht' := hj'.2
      rw [mem_def.mp ht] at ht'
      exact of_decide_eq_true ht'
    have hsp := spares_claimJobs hc fun j hj hid => (hjob j hj hid).1
    have hI' : Inv F { s with db := { s.db with queue := q' } } := hI.spares hsp
    refine { hI' with capped := ?_ }
    rintro b hb it hit
    cases hb
    obtain ⟨hid, j, hj, rfl, -⟩ := (claimJobs_spec hc).taken it hit
    rw [Item.ofRead_id] at hid
    cases hread : read j.slot with
    | none => rfl
    | some o =>
      obtain ⟨text, version⟩ := o
      have hcap := (hjob j hj hid).2
      rw [hread] at hcap
      show (text.any fun t => decide (U.bytes t > itemCap)) = false
      cases text with
      | none => rfl
      | some t =>
        have := hcap t rfl
        simpa using this
  | writeBack contacts changed seen =>
    simp only [Sys.step] at h
    split at h
    · rename_i c r items hc hb
      obtain ⟨answers, hp, h⟩ := bind_eq_some_iff.mp h
      obtain ⟨db, hdb, rfl⟩ := map_eq_some_iff.mp h
      have hheld : heldBy F c r.target = true := by simpa [reaches, hc, hb] using hr
      have hw := ask_waits contacts r.dim (hI.client c hc) hheld
        (items.filterMap Item.text)
      have hsp : Spares s.db.queue db.queue := by
        refine spares_writeBack (fun a ha => ?_) hdb
        obtain ⟨hit, ho⟩ := paired_waits hw hp a ha
        exact ⟨hI.capped _ hb _ hit, ho⟩
      exact { hI.spares hsp with capped := fun _ hb => by cases hb }
    · cases h
  | release id =>
    simp only [Sys.step] at h
    split at h
    · rename_i r items hb
      simp only [ite_none_right_eq_some] at h
      obtain ⟨queue, hq, rfl⟩ := map_eq_some_iff.mp h.2
      have hI' : Inv F { s with db := { s.db with queue } } := hI.spares (spares_tryRelease hq)
      refine { hI' with capped := ?_ }
      intro b hb' it hit
      cases hb'
      exact hI.capped _ hb it (mem_of_mem_filter hit)
    · cases h
  | migrate m =>
    simp only [Sys.step, ite_none_right_eq_some, Option.some.injEq] at h
    obtain ⟨⟨hrun, -⟩, rfl⟩ := h
    refine { hI with migrations := fun m' hm' => ?_ }
    rcases mem_append.mp hm' with hm' | hm'
    · exact hI.migrations m' hm'
    · rw [mem_singleton.mp hm', hrun]
      decide
  | endMigration id aborted =>
    cases h
    refine { hI with migrations := fun m hm => ?_ }
    obtain ⟨m', hm', rfl | rfl⟩ := mem_updateMigration hm
    · cases aborted <;> simp
    · exact hI.migrations m hm'
  | readBatch id rows backfilling =>
    simp only [Sys.step] at h
    split at h
    · cases h
    · split at h
      · cases h
      · split at h
        · cases h
          exact { hI with }
        · split at h
          · cases h
            exact hI
          · cases h
            refine { hI with migrations := fun m hm => ?_ }
            obtain ⟨m', hm', rfl | rfl⟩ := mem_updateMigration hm
            · simp
            · exact hI.migrations m hm'
  | writeBatch contacts changed affected error =>
    simp only [Sys.step] at h
    split at h
    · rename_i c d hc hd
      cases h
      have hheld : heldBy F c d.migration.target = true := by simpa [reaches, hc, hd] using hr
      have hw := ask_waits contacts d.migration.dim (hI.client c hc) hheld
        (d.rows.filterMap Prod.snd)
      have herr : error ≠ some true := by simpa [guarded] using hg
      exact { hI with
        migrations := writeDrive_spares herr (driveLoop_waits hw) hI.migrations }
    · cases h
  | quarantine => cases hg

/-- A state runs start from: no job is dead yet and no migration has failed, and no session has
    begun. -/
structure Sys.Start (s : Sys K δ P X ν) : Prop where
  dead : s.db.queue.dead = []
  migrations : ∀ m ∈ s.migrations, m.state ≠ .failed
  client : s.client = none
  batch : s.batch = none

/-- **An outage costs nothing but time**, where a holder was reached: in every run of writers,
    refreshes that reach any of the nodes, embed steps, batches of migrations and lost leaders,
    whose batches ask only for what a node of the last refresh holds, no job is dead before its
    fifth claim that was not refunded, and no migration has failed. -/
theorem outage_waits [DecidableEq δ] [DecidableEq ν] [Inhabited P] (F : Fleet X V) (U : Setup δ X)
    (s₀ s : Sys K δ P X ν) (h₀ : s₀.Start)
    (h : Reach (Sys.step F U) (fun s a => guarded U s a = true ∧ reaches s a = true) s₀ s) :
    (∀ d ∈ s.db.queue.dead, maxAttempts ≤ d.attempts) ∧ ∀ m ∈ s.migrations, m.state ≠ .failed := by
  have hstart : Inv F s₀ :=
    { dead := fun d hd => by simp [h₀.dead] at hd
      migrations := h₀.migrations
      client := fun c hc => by simp [h₀.client] at hc
      capped := fun b hb => by simp [h₀.batch] at hb }
  have hI : Inv F s := h.invariant hstart fun s a s' hI hc hs => hI.step hc.1 hc.2 hs
  exact ⟨hI.dead, hI.migrations⟩

end Runs

/-! ## 9. Two outages -/

section Examples

/-- A local embed model. -/
def smallModel : Discovery.ModelInfo :=
  ⟨['m'], Discovery.embed, none, none, none, some 1, none, ⟨none, none⟩, []⟩

/-- Two nodes; the second one holds the model. -/
def twoNodes : Fleet Nat Nat where
  inventory := fun i => if i = 1 then [smallModel] else []
  timeout := 100
  timeout_pos := by decide
  width := id
  finite := fun _ => true
  answer := fun _ _ dim range => range.map fun _ => dim
  answer_length := fun _ _ _ _ => length_map _
  answer_fits := by
    intro _ _ dim range v hv
    obtain ⟨_, -, rfl⟩ := List.mem_map.mp hv
    exact ⟨rfl, rfl⟩

theorem mem_twoNodes {i : Nat} {m : Discovery.ModelInfo} (h : m ∈ twoNodes.inventory i) :
    m = smallModel := by
  simp only [twoNodes] at h
  split at h
  · exact mem_singleton.mp h
  · cases h

/-- The database knows no width yet. -/
def nothingKnown : Agreed twoNodes where
  val := []
  property :=
    { named := by
        intro i j m hm m' hm' _
        rw [mem_twoNodes hm, mem_twoNodes hm']
        decide
      widths := by
        intro i j m hm m' hm' _ d hd d' hd'
        rw [mem_twoNodes hm] at hd
        rw [mem_twoNodes hm'] at hd'
        exact mem_unique hd hd'
      known := fun _ _ _ _ _ _ hw => by cases hw }

def smallSetup : Setup (Option Nat) Nat where
  source := id
  recursive := false
  mode := .statement
  bytes := fun _ => 1
  batchSize := 10

abbrev SmallSys := Sys Nat (Option Nat) (Option Nat) Nat Nat

def emptySys : SmallSys := ⟨⟨.empty, .empty, .empty, 0⟩, none, none, [], none⟩

theorem emptySys_start : emptySys.Start where
  dead := rfl
  migrations := fun _ hm => by cases hm
  client := rfl
  batch := rfl

def smallMigration : Migration Nat := ⟨0, ['m'], none, none, 1, .running, none⟩

def nodesUp (up : Bool) : Nat → Contact := fun _ => ⟨0, fun _ => up, fun _ => 1, 0⟩

/-- A row is inserted and a migration to the model is begun; the leader on node 0 refreshes, and
    sends a batch of each, with the other node up or down. -/
def outageRun (answered : List Nat) (up : Bool) : List (Act twoNodes Nat (Option Nat) Nat) :=
  [.writer .begin, .writer (.exec 0 (.insert [(1, some 10)])), .writer (.commit 0),
    .migrate smallMigration, .refresh 0 answered nothingKnown,
    .claim ⟨['m'], none, 1⟩ [0] (fun _ => some (some 10, 0)),
    .writeBack (nodesUp up) false (fun _ => ⟨some 0, false, false⟩),
    .readBatch 0 [(1, some 10)] false, .writeBatch (nodesUp up) false (fun _ => true) none]

/-- **One refresh while the only other node is down**: the job is dead after its first claim and the
    migration has failed, though the node holds the model and answers every request after that. -/
theorem outage_kills : holds (.embed ['m'] none) (twoNodes.inventory 1) = true ∧
    ∃ s : SmallSys, Reach (Sys.step twoNodes smallSetup) (fun s a => guarded smallSetup s a = true)
        emptySys s ∧
      (∃ d ∈ s.db.queue.dead, d.attempts = 1) ∧ ∃ m ∈ s.migrations, m.state = .failed := by
  refine ⟨by decide, ?_⟩
  have h : (runWhile (Sys.step twoNodes smallSetup) (fun s a => guarded smallSetup s a = true)
      emptySys (outageRun [] true)).any (fun s => decide ((∃ d ∈ s.db.queue.dead, d.attempts = 1) ∧
        ∃ m ∈ s.migrations, m.state = .failed)) = true := by decide +kernel
  obtain ⟨s, hs, hp⟩ := Reach.exists_of_runWhile h
  exact ⟨s, hs, of_decide_eq_true hp⟩

/-- The refresh reached the node, and the requests do not: the job waits for its next claim, the
    migration for its next batch. -/
theorem outage_waited : ∃ s : SmallSys, Reach (Sys.step twoNodes smallSetup)
      (fun s a => guarded smallSetup s a = true ∧ reaches s a = true) emptySys s ∧
    s.db.queue.jobs.map Job.attempts = [1] ∧
    (∀ d ∈ s.db.queue.dead, maxAttempts ≤ d.attempts) ∧ ∀ m ∈ s.migrations, m.state ≠ .failed := by
  have h : (runWhile (Sys.step twoNodes smallSetup)
      (fun s a => guarded smallSetup s a = true ∧ reaches s a = true)
      emptySys (outageRun [1] false)).any (fun s =>
        decide (s.db.queue.jobs.map Job.attempts = [1])) = true := by decide +kernel
  obtain ⟨s, hs, hp⟩ := Reach.exists_of_runWhile h
  exact ⟨s, hs, of_decide_eq_true hp,
    outage_waits twoNodes smallSetup emptySys s emptySys_start hs⟩

end Examples

end Postvec.Outage
