import Postvec.Extension.Bisection
import Postvec.Extension.Watermark

/-!
# The migration driver: a batch through the network

A batch of a migration is read in one transaction, sent to the network without one, and written in
another. `run_inference` embeds the texts of a batch (`reembed`) or converts its stored vectors,
each way in sub-batches that may be halved, and puts the results back beside their rows;
`apply_migration_batch` writes them and moves the watermark.

The batch is what the read returned (`MigrationBatch.ofRead`), with the reason in place of a payload
for a row that is to be skipped. A call of the client may be answered in any way; parsing a stored
vector and the test for finite components are parameters. `expect` on an exhausted iterator is
`none`.

* **`driver_aligned`**: no `expect` fails; the batch fails as a whole, or each result is computed
  from its row's own payload; and each row is written, skipped or held, once;
* `apply_fills`: the write-back is the one of `Extension/Watermark.lean`, which looks at the rows
  only as the read sees them.
-/

namespace Postvec.MigrationDriver

open Machine.Halving List
open Bisection

variable {K F : Type} [DecidableEq K]

/-! ## 1. The batch -/

/-- `read_migration_batch` returned work. -/
structure MigrationBatch (K : Type) where
  oldDim : Int
  newDim : Int
  pks : List K
  /-- a stored vector or a text, or why the row is skipped -/
  payloads : List (Except Text Text)
  /-- there is an embed call: the strategy is `reembed` -/
  reembed : Bool
  parallel : pks.length = payloads.length
  keys : pks.Nodup

/-- `BatchRead::Work`: the rows of a read, unzipped. -/
def MigrationBatch.ofRead {K κ : Type} [LinearOrder κ] (R : Watermark.Reader K κ Text)
    (q : Watermark.Request K Text) (t : Watermark.Table K Text) (lastPk : Option Text)
    (oldDim newDim : Int) : Option (MigrationBatch K) :=
  match h : Watermark.readMigrationBatch R q t lastPk with
  | .work rows => some
    { oldDim := oldDim
      newDim := newDim
      pks := rows.map Prod.fst
      payloads := rows.map Prod.snd
      reembed := q.reembed
      parallel := by rw [length_map, length_map]
      keys := Watermark.work_keys R h }
  | _ => none

/-- What came of a row. -/
inductive RowResult (F : Type) where
  | vector (v : List F)
  | skip (reason : Text)
deriving DecidableEq

/-- The requests of a batch. -/
inductive Asked (F : Type) where
  | texts (requests : List (List Text))
  | vectors (requests : List (List (List F)))

/-! ## 2. Inference -/

section inference

variable (finite : F → Bool) (parseVector : Text → Except Text (List F))
  (embed : Nat → List Text → Except ClientError (List (List F)))
  (convert : Nat → List (List F) → Except ClientError (List (List F)))

/-- What `convert_with_split` makes of an answer; it starts with three halvings left. -/
def convertReply (calls depth : Nat) (vecs : List (List F)) : Reply (List F) ClientError :=
  match convert calls vecs with
  | .ok out =>
    if out.length = vecs.length then .done out
    else .fail (countMismatch "conversion" out.length vecs.length)
  | .error e => if e.error.timedOut ∧ vecs.length > 1 ∧ depth < 3 then .split e else .fail e

def convertWithSplit (calls : Nat) (vecs : List (List F)) :
    List (List (List F)) × Except ClientError (List (List F)) :=
  halve (convertReply convert) calls 0 vecs

/-- A loop over sub-batches that ends with the first error. -/
def eachChunk {X Y : Type} (run : Nat → List X → List (List X) × Except ClientError (List Y)) :
    Nat → List (List X) → List (List X) × Except ClientError (List Y)
  | _, [] => ([], .ok [])
  | calls, chunk :: chunks =>
    let r := run calls chunk
    match r.2 with
    | .error e => (r.1, .error e)
    | .ok ys =>
      let rest := eachChunk run (calls + r.1.length) chunks
      (r.1 ++ rest.1, rest.2.map (ys ++ ·))

/-- The results beside the payloads they were computed for. -/
def mergeBack {X Y : Type} (result : Y → RowResult F) :
    List (Except Text X) → List Y → Option (List (RowResult F))
  | [], _ => some []
  | .ok _ :: ps, y :: ys => (mergeBack result ps ys).map (result y :: ·)
  | .ok _ :: _, [] => none
  | .error reason :: ps, ys => (mergeBack result ps ys).map (.skip reason :: ·)

def embedResult : Except Text (List F) → RowResult F
  | .ok v => .vector v
  | .error poison => .skip poison

/-- A stored vector, or why its row is skipped. -/
def parsePayload (p : Except Text Text) : Except Text (List F) :=
  match p with
  | .ok text => (parseVector text).mapError ("unparseable stored vector: ".toList ++ ·)
  | .error reason => .error reason

/-- The last check of a row; the length is compared as an `i32`. -/
def validate (newDim : Int) : RowResult F → RowResult F
  | .vector v =>
    if Int.bmod v.length (2 ^ 32) ≠ newDim then
      .skip ("model returned " ++ toString v.length ++ " dims, column is vector(" ++
        toString newDim ++ ")").toList
    else if !v.all finite then .skip "model returned a non-finite vector (NaN/Inf)".toList
    else .vector v
  | .skip reason => .skip reason

/-- The results put back and checked; `none` if an `expect` failed. -/
def finish {X Y : Type} (b : MigrationBatch K) (result : Y → RowResult F)
    (payloads : List (Except Text X))
    (asked : Asked F) : Except ClientError (List Y) →
      Option (Asked F × Except ClientError (List (RowResult F)))
  | .error e => some (asked, .error e)
  | .ok ys =>
    (mergeBack result payloads ys).map fun rows =>
    (asked, .ok (rows.map (validate finite b.newDim)))

def runInference (b : MigrationBatch K) :
    Option (Asked F × Except ClientError (List (RowResult F))) :=
  let maxItems := maxItemsForDim (max b.newDim b.oldDim)
  if b.reembed then
    let texts := b.payloads.filterMap Except.toOption
    let r := eachChunk (bisectEmbed embed) 0 (requestChunks texts b.newDim)
    finish finite b embedResult b.payloads (.texts r.1) r.2
  else
    let parsed := b.payloads.map (parsePayload parseVector)
    let good := parsed.filterMap Except.toOption
    let r := eachChunk (convertWithSplit convert) 0 (good.toChunks (max maxItems 1))
    finish finite b RowResult.vector parsed (.vectors r.1) r.2

end inference

/-! ## 3. The write-back -/

inductive MigrationState where
  | running | failed | other
deriving DecidableEq

/-- The row of `postvec.migrations`. -/
structure Progress (K : Type) where
  state : MigrationState
  lastPk : Option K
  rowsDone : Nat
  rowsSkipped : Nat
  retryFailures : Nat

/-- What the write-back finds: the entry, and what it misses besides the new column or with it. -/
structure Catalog where
  entry : Bool
  missing : Option Text
  missingNew : Option Text

/-- The new column: no row, NULL, or a vector. -/
abbrev NewColumn (K F : Type) := K → Option (Option (List F))

/-- `UPDATE .. FROM unnest(..) WHERE new_col IS NULL`: the column, and how many rows were
    written. -/
def update : List (K × List F) → NewColumn K F → NewColumn K F × Nat
  | [], col => (col, 0)
  | (pk, v) :: writes, col =>
    let rest := update writes col
    match col pk with
    | some none => (Function.update rest.1 pk (some (some v)), rest.2 + 1)
    | _ => rest

/-- The loop over keys and results: what is written, and the keys skipped. -/
def sort : List (K × RowResult F) → List (K × List F) × List K
  | [] => ([], [])
  | (pk, .vector v) :: rows => ((pk, v) :: (sort rows).1, (sort rows).2)
  | (pk, .skip _) :: rows => ((sort rows).1, pk :: (sort rows).2)

/-- How the step of a batch ends: what it wrote and skipped, if the watermark moved. -/
structure Ended (K F : Type) where
  progress : Progress K
  column : NewColumn K F
  applied : Option (List (K × List F) × List K)

def failMigration (p : Progress K) : Progress K :=
  if p.state = .running then { p with state := .failed } else p

def setMigrationError (p : Progress K) : Progress K :=
  if p.state = .running then { p with retryFailures := p.retryFailures + 1 } else p

/-- A missing dependency quarantines the entry and fails its migration. -/
def applyMigrationBatch (b : MigrationBatch K) (results : List (RowResult F)) (cat : Catalog)
    (p : Progress K) (col : NewColumn K F) : Ended K F :=
  if p.state ≠ .running then ⟨p, col, none⟩
  else if !cat.entry then ⟨failMigration p, col, none⟩
  else if cat.missing.isSome then ⟨failMigration p, col, none⟩
  else if cat.missingNew.isSome then ⟨failMigration p, col, none⟩
  else
    let rows := sort (b.pks.zip results)
    let u := update rows.1 col
    ⟨{ p with rowsDone := p.rowsDone + u.2, rowsSkipped := p.rowsSkipped + rows.2.length,
              lastPk := b.pks.getLast?, retryFailures := 0 }, u.1, some rows⟩

/-- `drain_step` with a batch that was read. The transaction of the write-back may abort. -/
def drain (b : MigrationBatch K) (result : Except ClientError (List (RowResult F))) (aborts : Bool)
    (cat : Catalog) (p : Progress K) (col : NewColumn K F) : Ended K F :=
  match result with
  | .ok results =>
    if aborts then ⟨setMigrationError p, col, none⟩ else applyMigrationBatch b results cat p col
  | .error e =>
    if e.error.class = .permanent then ⟨failMigration p, col, none⟩
    else ⟨setMigrationError p, col, none⟩

/-! ## 4. Results and rows -/

/-- Splitting a list into chunks loses nothing. -/
theorem flatten_toChunks {X : Type} (n : Nat) (xs : List X) : (xs.toChunks n).flatten = xs := by
  have hgo : ∀ (n : Nat) (xs : List X) (part : Array X) (parts : Array (List X)),
      (toChunks.go n xs part parts).flatten = parts.toList.flatten ++ part.toList ++ xs := by
    intro n xs
    induction xs with
    | nil =>
      intro part parts
      simp [toChunks.go]
    | cons x xs ih =>
      intro part parts
      unfold toChunks.go
      split
      · rw [ih]
        simp
      · rw [ih]
        simp
  cases xs with
  | nil => cases n <;> rfl
  | cons x xs =>
    cases n with
    | zero => simp [toChunks]
    | succ n =>
      rw [toChunks, hgo]
      · simp
      · exact Nat.succ_ne_zero n

section rows

variable {X Y : Type}

/-- The items of a batch that are sent, side by side with what comes back for them. -/
theorem mergeBack_spec (result : Y → RowResult F) : ∀ {ps : List (Except Text X)} {ys : List Y}
    {R : X → Y → Prop}, List.Forall₂ R (ps.filterMap Except.toOption) ys →
    ∃ rows, mergeBack result ps ys = some rows ∧
      List.Forall₂ (fun p row => (∀ reason, p = .error reason → row = .skip reason) ∧
        ∀ x, p = .ok x → ∃ y, R x y ∧ row = result y) ps rows
  | [], ys, R, _ => ⟨[], rfl, .nil⟩
  | .error reason :: ps, ys, R, h => by
    change List.Forall₂ R (ps.filterMap Except.toOption) ys at h
    obtain ⟨rows, hm, hrows⟩ := mergeBack_spec result h
    refine ⟨.skip reason :: rows, by rw [mergeBack, hm]; rfl, .cons ⟨?_, ?_⟩ hrows⟩
    · intro r he
      cases he
      rfl
    · intro x he
      cases he
  | .ok x :: ps, ys, R, h => by
    change List.Forall₂ R (x :: ps.filterMap Except.toOption) ys at h
    obtain ⟨y, ys', hxy, h', rfl⟩ := forall₂_cons_left_iff.mp h
    obtain ⟨rows, hm, hrows⟩ := mergeBack_spec result h'
    refine ⟨result y :: rows, by rw [mergeBack, hm]; rfl, .cons ⟨?_, ?_⟩ hrows⟩
    · intro r he
      cases he
    · intro x' he
      cases he
      exact ⟨y, hxy, rfl⟩

/-- The loop over sub-batches keeps what each keeps. The results are given by requests of the
    loop. -/
theorem eachChunk_given {send : Nat → Nat → List X → Reply Y ClientError}
    {run : Nat → List X → List (List X) × Except ClientError (List Y)}
    (hrun : ∀ calls xs ys, (run calls xs).2 = .ok ys →
      List.Forall₂ (Given send calls (run calls xs).1) xs ys) :
    ∀ (calls : Nat) (parts : List (List X)) {ys : List Y}, (eachChunk run calls parts).2 = .ok ys →
      List.Forall₂ (Given send calls (eachChunk run calls parts).1) parts.flatten ys
  | _, [], ys, h => by
    cases h
    exact .nil
  | calls, part :: parts, ys, h => by
    unfold eachChunk at h ⊢
    dsimp only at h ⊢
    cases hr : (run calls part).2 with
    | error e =>
      rw [hr] at h
      cases h
    | ok zs =>
      rw [hr] at h
      dsimp only at h ⊢
      cases hrest : (eachChunk run (calls + (run calls part).1.length) parts).2 with
      | error e =>
        rw [hrest] at h
        cases h
      | ok ws =>
        rw [hrest] at h
        cases h
        have ih := eachChunk_given hrun (calls + (run calls part).1.length) parts hrest
        exact rel_append ((hrun calls part zs hr).imp fun _ _ hg => hg.append_right _)
          (ih.imp fun _ _ hg => hg.append_left _)

end rows

/-! ## 5. Inference keeps to its rows -/

section aligned

variable {finite : F → Bool} {parseVector : Text → Except Text (List F)}
  {embed : Nat → List Text → Except ClientError (List (List F))}
  {convert : Nat → List (List F) → Except ClientError (List (List F))}

theorem convertReply_length {n d : Nat} {vecs out : List (List F)}
    (h : convertReply convert n d vecs = .done out) : out.length = vecs.length := by
  unfold convertReply at h
  split at h
  · split at h
    · cases h
      assumption
    · cases h
  · split at h <;> cases h

theorem bisectEmbed_given (calls : Nat) (texts : List Text) (ys : List (Except Text (List F)))
    (h : (bisectEmbed embed calls texts).2 = .ok ys) :
    List.Forall₂ (Given (embedReply embed) calls (bisectEmbed embed calls texts).1) texts ys := by
  unfold bisectEmbed at h ⊢
  split at h
  · rename_i he
    cases h
    rw [List.isEmpty_iff.mp he]
    exact .nil
  · rename_i he
    rw [if_neg he]
    exact halve_done (fun _ _ _ _ => embedReply_length) calls 0 texts h

variable (finite parseVector embed convert) in
/-- The result of a row is computed from its own payload: the reason it is skipped for, or what a
    request that held the payload gave in the payload's place, then checked. -/
def Own (newDim : Int) (asked : Asked F) (p : Except Text Text) (row : RowResult F) : Prop :=
  match p, asked with
  | .error reason, _ => row = .skip reason
  | .ok text, .texts requests =>
    ∃ y, Given (embedReply embed) 0 requests text y ∧ row = validate finite newDim (embedResult y)
  | .ok text, .vectors requests =>
    match parseVector text with
    | .error e => row = .skip ("unparseable stored vector: ".toList ++ e)
    | .ok v =>
      ∃ w, Given (convertReply convert) 0 requests v w ∧ row = validate finite newDim (.vector w)

omit [DecidableEq K] in
variable (finite parseVector embed convert) in
/-- No `expect` fails, and results are beside their rows. -/
theorem runInference_spec (b : MigrationBatch K) :
    ∃ asked result, runInference finite parseVector embed convert b = some (asked, result) ∧
      ∀ results, result = .ok results →
        List.Forall₂ (Own finite parseVector embed convert b.newDim asked) b.payloads results := by
  unfold runInference
  by_cases hre : b.reembed = true
  · dsimp only
    rw [if_pos hre]
    generalize hr : eachChunk (bisectEmbed embed) 0
      (requestChunks (b.payloads.filterMap Except.toOption) b.newDim) = r
    cases hres : r.2 with
    | error e => exact ⟨_, _, rfl, fun _ h => by cases h⟩
    | ok ys =>
      have hgiven := eachChunk_given bisectEmbed_given 0 _ (hr ▸ hres)
      rw [hr, (requestChunks_spec _ _).1] at hgiven
      obtain ⟨rows, hm, hrows⟩ := mergeBack_spec embedResult hgiven
      refine ⟨.texts r.1, .ok (rows.map (validate finite b.newDim)), by rw [finish, hm]; rfl, ?_⟩
      intro results he
      cases he
      refine forall₂_map_right_iff.mpr (hrows.imp fun p row h => ?_)
      cases p with
      | error reason =>
        rw [h.1 reason rfl]
        rfl
      | ok text =>
        obtain ⟨y, hy, he⟩ := h.2 text rfl
        exact ⟨y, hy, by rw [he]⟩
  · dsimp only
    rw [if_neg hre]
    generalize hr : eachChunk (convertWithSplit convert) 0
      (((b.payloads.map (parsePayload parseVector)).filterMap Except.toOption).toChunks
        (max (maxItemsForDim (max b.newDim b.oldDim)) 1)) = r
    cases hres : r.2 with
    | error e => exact ⟨_, _, rfl, fun _ h => by cases h⟩
    | ok ys =>
      have hgiven := eachChunk_given
        (fun calls vecs ys h => halve_done (fun _ _ _ _ => convertReply_length) calls 0 vecs h) 0 _
        (hr ▸ hres)
      rw [show eachChunk (fun calls vecs => halve (convertReply convert) calls 0 vecs) 0 _ =
        r from hr,
        flatten_toChunks] at hgiven
      obtain ⟨rows, hm, hrows⟩ := mergeBack_spec RowResult.vector hgiven
      refine ⟨.vectors r.1, .ok (rows.map (validate finite b.newDim)), by rw [finish, hm]; rfl, ?_⟩
      intro results he
      cases he
      refine forall₂_map_right_iff.mpr
        ((forall₂_map_left_iff.mp hrows).imp fun p row h => ?_)
      cases p with
      | error reason =>
        rw [h.1 reason rfl]
        rfl
      | ok text =>
        unfold Own
        dsimp only
        cases hp : parseVector text with
        | error e =>
          have hs : parsePayload parseVector (.ok text) =
              .error ("unparseable stored vector: ".toList ++ e) := by
            rw [parsePayload, hp]
            rfl
          rw [h.1 _ hs]
          rfl
        | ok v =>
          have hs : parsePayload parseVector (.ok text) = .ok v := by
            rw [parsePayload, hp]
            rfl
          obtain ⟨w, hw, he⟩ := h.2 v hs
          exact ⟨w, hw, by rw [he]⟩

/-- The check lets a vector through, or makes it a skip. -/
theorem validate_vector {n : Int} {w v : List F} (h : validate finite n (.vector w) = .vector v) :
    v = w := by
  unfold validate at h
  dsimp only at h
  split at h
  · cases h
  · split at h
    · cases h
    · cases h
      rfl

omit [DecidableEq K] in
theorem finish_asked {X Y : Type} {b : MigrationBatch K} {result : Y → RowResult F}
    {payloads : List (Except Text X)} {asked asked' : Asked F} {r : Except ClientError (List Y)}
    {rows : Except ClientError (List (RowResult F))}
    (h : finish finite b result payloads asked r = some (asked', rows)) : asked' = asked := by
  unfold finish at h
  split at h
  · cases h
    rfl
  · obtain ⟨_, -, e⟩ := Option.map_eq_some_iff.mp h
    cases e
    rfl

end aligned

/-! ## 6. Every row once -/

omit [DecidableEq K] in
theorem sort_perm (rows : List (K × RowResult F)) :
    ((sort rows).1.map Prod.fst ++ (sort rows).2).Perm (rows.map Prod.fst) := by
  fun_induction sort rows with
  | case1 => exact .nil
  | case2 pk v rows ih => exact ih.cons pk
  | case3 pk _ rows ih => exact perm_middle.trans (ih.cons pk)

omit [DecidableEq K] in
theorem mem_sort (rows : List (K × RowResult F)) (pk : K) :
    (∀ v, (pk, .vector v) ∈ rows → (pk, v) ∈ (sort rows).1) ∧
      ∀ reason, (pk, .skip reason) ∈ rows → pk ∈ (sort rows).2 := by
  fun_induction sort rows with
  | case1 => exact ⟨fun _ h => absurd h not_mem_nil, fun _ h => absurd h not_mem_nil⟩
  | case2 pk' v' rows ih =>
    refine ⟨fun v h => ?_, fun reason h => ?_⟩
    · rcases mem_cons.mp h with h | h
      · cases h
        exact mem_cons_self
      · exact mem_cons_of_mem _ (ih.1 v h)
    · rcases mem_cons.mp h with h | h
      · cases h
      · exact ih.2 reason h
  | case3 pk' reason' rows ih =>
    refine ⟨fun v h => ?_, fun reason h => ?_⟩
    · rcases mem_cons.mp h with h | h
      · cases h
      · exact ih.1 v h
    · rcases mem_cons.mp h with h | h
      · cases h
        exact mem_cons_self
      · exact mem_cons_of_mem _ (ih.2 reason h)

/-- What the guarded write leaves in a row it has a vector for. -/
def written (old : Option (Option (List F))) (v : List F) : Option (Option (List F)) :=
  match old with
  | some none => some (some v)
  | _ => old

theorem update_cons_ne (col : NewColumn K F) {pk pk' : K} (hne : pk ≠ pk') (v : List F)
    (writes : List (K × List F)) : (update ((pk', v) :: writes) col).1 pk =
    (update writes col).1 pk := by
  rw [update]
  split
  · exact Function.update_of_ne hne _ _
  · rfl

theorem update_of_not_mem (col : NewColumn K F) {pk : K} : ∀ {writes : List (K × List F)},
    pk ∉ writes.map Prod.fst → (update writes col).1 pk = col pk
  | [], _ => rfl
  | (pk', v) :: writes, h => by
    obtain ⟨hne, h⟩ := not_or.mp (mt mem_cons.mpr h)
    rw [update_cons_ne col hne]
    exact update_of_not_mem col h

theorem update_of_mem (col : NewColumn K F) {pk : K} {v : List F} : ∀ {writes : List (K × List F)},
    (writes.map Prod.fst).Nodup → (pk, v) ∈ writes → (update writes col).1 pk = written (col pk) v
  | (pk', v') :: writes, hk, h => by
    obtain ⟨hnot, hk⟩ := nodup_cons.mp hk
    rcases mem_cons.mp h with h | h
    · cases h
      unfold update written
      dsimp only
      split
      · exact Function.update_self _ _ _
      · exact update_of_not_mem col hnot
    · have hin : pk ∈ writes.map Prod.fst := mem_map_of_mem h
      have hne : pk ≠ pk' := fun e => hnot (e ▸ hin)
      rw [update_cons_ne col hne]
      exact update_of_mem col hk h

/-- The rows of a batch after its step: all of them held, with the watermark where it was, or each
    of them written or skipped, once and with its own result. -/
inductive Placed (b : MigrationBatch K) (result : Except ClientError (List (RowResult F)))
    (p : Progress K) (col : NewColumn K F) (out : Ended K F) : Prop where
  | held (hc : out.column = col) (hp : out.progress.lastPk = p.lastPk) (ha : out.applied = none)
  | done {results : List (RowResult F)} {writes : List (K × List F)} {skipped : List K}
      (hr : result = .ok results) (ha : out.applied = some (writes, skipped))
      (once : (writes.map Prod.fst ++ skipped).Perm b.pks)
      (vector : ∀ (i : Nat) pk v, b.pks[i]? = some pk → results[i]? = some (.vector v) →
        (pk, v) ∈ writes ∧ out.column pk = written (col pk) v)
      (skip : ∀ (i : Nat) pk reason, b.pks[i]? = some pk → results[i]? = some (.skip reason) →
        pk ∈ skipped ∧ out.column pk = col pk)
      (others : ∀ pk, pk ∉ b.pks → out.column pk = col pk)
      (watermark : out.progress.lastPk = b.pks.getLast?)

/-- What a batch that is applied makes of one row. -/
inductive Landed (b : MigrationBatch K) (results : List (RowResult F)) (col : NewColumn K F)
    (out : Ended K F) (skipped : List K) (k : K) : Prop where
  | other : k ∉ b.pks → out.column k = col k → skipped.count k = 0 →
      Landed b results col out skipped k
  | vector {i : Nat} {v : List F} : b.pks[i]? = some k → results[i]? = some (.vector v) →
      out.column k = written (col k) v → skipped.count k = 0 → Landed b results col out skipped k
  | skip {i : Nat} {reason : Text} : b.pks[i]? = some k → results[i]? = some (.skip reason) →
      out.column k = col k → skipped.count k = 1 → Landed b results col out skipped k

theorem Placed.landed {b : MigrationBatch K} {results : List (RowResult F)} {p : Progress K}
    {col : NewColumn K F} {out : Ended K F} (h : Placed b (.ok results) p col out)
    (hlen : results.length = b.payloads.length) {writes : List (K × List F)} {skipped : List K}
    (ha : out.applied = some (writes, skipped)) (k : K) : Landed b results col out skipped k := by
  cases h with
  | held hc hp ha' =>
    rw [ha] at ha'
    cases ha'
  | done hr ha' once vector skip others watermark =>
    cases hr
    cases ha.symm.trans ha'
    -- a key is written or skipped as often as it is in the batch
    have hcount : (writes.map Prod.fst).count k + skipped.count k = b.pks.count k := by
      rw [← count_append]
      exact once.count_eq k
    by_cases hin : k ∈ b.pks
    · rw [count_eq_one_of_mem b.keys hin] at hcount
      obtain ⟨i, hi⟩ := mem_iff_getElem?.mp hin
      have hlt : i < results.length := by
        rw [hlen, ← b.parallel]
        exact (List.getElem?_eq_some_iff.mp hi).1
      have hres := List.getElem?_eq_getElem hlt
      cases hrow : results[i] with
      | vector v =>
        rw [hrow] at hres
        obtain ⟨hw, hcol⟩ := vector i k v hi hres
        have hpos : 0 < (writes.map Prod.fst).count k := count_pos_iff.mpr (mem_map_of_mem hw)
        exact .vector hi hres hcol (by omega)
      | skip reason =>
        rw [hrow] at hres
        obtain ⟨hs, hcol⟩ := skip i k reason hi hres
        have hpos := count_pos_iff.mpr hs
        exact .skip hi hres hcol (by omega)
    · rw [count_eq_zero_of_not_mem hin] at hcount
      exact .other hin (others k hin) (by omega)

omit [DecidableEq K] in
theorem failMigration_lastPk (p : Progress K) : (failMigration p).lastPk = p.lastPk := by
  unfold failMigration
  split <;> rfl

omit [DecidableEq K] in
theorem setMigrationError_lastPk (p : Progress K) : (setMigrationError p).lastPk = p.lastPk := by
  unfold setMigrationError
  split <;> rfl

omit [DecidableEq K] in
theorem setMigrationError_state (p : Progress K) : (setMigrationError p).state = p.state := by
  unfold setMigrationError
  split <;> rfl

theorem apply_placed (b : MigrationBatch K) {results : List (RowResult F)} (cat : Catalog)
    (p : Progress K) (col : NewColumn K F) (hlen : results.length = b.payloads.length) :
    Placed b (.ok results) p col (applyMigrationBatch b results cat p col) := by
  unfold applyMigrationBatch
  split
  · exact .held rfl rfl rfl
  split
  · exact .held rfl (failMigration_lastPk p) rfl
  split
  · exact .held rfl (failMigration_lastPk p) rfl
  split
  · exact .held rfl (failMigration_lastPk p) rfl
  have hkeys : (b.pks.zip results).map Prod.fst = b.pks :=
    map_fst_zip (by rw [hlen, b.parallel])
  have hperm := sort_perm (b.pks.zip results)
  rw [hkeys] at hperm
  have hnodup := hperm.nodup_iff.mpr b.keys
  have hzip : ∀ {i : Nat} {pk : K} {row : RowResult F}, b.pks[i]? = some pk →
    results[i]? = some row →
      (pk, row) ∈ b.pks.zip results := fun hp hr =>
    mem_of_getElem? (List.getElem?_zip_eq_some.mpr ⟨hp, hr⟩)
  refine .done rfl rfl hperm ?_ ?_ ?_ rfl
  · intro i pk v hp hr
    have hw := (mem_sort _ pk).1 v (hzip hp hr)
    exact ⟨hw, update_of_mem col (nodup_append.mp hnodup).1 hw⟩
  · intro i pk reason hp hr
    have hs := (mem_sort _ pk).2 reason (hzip hp hr)
    refine ⟨hs, update_of_not_mem col fun hw => ?_⟩
    exact (nodup_append.mp hnodup).2.2 pk hw pk hs rfl
  · intro pk hnot
    refine update_of_not_mem col fun hw => hnot ?_
    exact hperm.subset (mem_append_left _ hw)

/-- The driver keeps to its rows. For every batch and whatever the client answers: no `expect`
    fails; the batch fails as a whole, or result `i` is computed from the payload of row `i`; and
    then each row is written or skipped once, or all are held. -/
theorem driver_aligned (finite : F → Bool) (parseVector : Text → Except Text (List F))
    (embed : Nat → List Text → Except ClientError (List (List F)))
    (convert : Nat → List (List F) → Except ClientError (List (List F))) (b : MigrationBatch K) :
    ∃ asked result, runInference finite parseVector embed convert b = some (asked, result) ∧
      ((∃ e, result = .error e) ∨ ∃ results, result = .ok results ∧
        List.Forall₂ (Own finite parseVector embed convert b.newDim asked) b.payloads results) ∧
      ∀ (aborts : Bool) (cat : Catalog) (p : Progress K) (col : NewColumn K F),
        Placed b result p col (drain b result aborts cat p col) := by
  obtain ⟨asked, result, hrun, hown⟩ := runInference_spec finite parseVector embed convert b
  refine ⟨asked, result, hrun, ?_, fun aborts cat p col => ?_⟩
  · cases result with
    | error e => exact .inl ⟨e, rfl⟩
    | ok results => exact .inr ⟨results, rfl, hown results rfl⟩
  · cases result with
    | error e =>
      unfold drain
      dsimp only
      split
      · exact .held rfl (failMigration_lastPk p) rfl
      · exact .held rfl (setMigrationError_lastPk p) rfl
    | ok results =>
      unfold drain
      dsimp only
      split
      · exact .held rfl (setMigrationError_lastPk p) rfl
      · exact apply_placed b cat p col (hown results rfl).length_eq.symm

/-- Three rows: one to be converted, one over the cap and one that reads as NULL. -/
def sampleRows : Watermark.Table (Fin 20) Text where
  rows := [(Watermark.nth 2, ⟨true, true, some ['1', '2', '3', '4', '5']⟩),
    (Watermark.nth 1, ⟨true, true, some ['1', '2']⟩), (Watermark.nth 10, ⟨true, true, none⟩)]
  keys := by decide

/-- A reader of stored vectors, of at most four bytes each. -/
def sampleTexts : Watermark.Reader (Fin 20) (Fin 20) Text :=
  { Watermark.sampleReader Watermark.decimalPk [['i', 'd']] with octets := byteLen }

/-- A batch that a read returned: keys in order, the reasons in place. -/
theorem sampleRows_aligned :
    ∃ b, MigrationBatch.ofRead sampleTexts ⟨false, 4, fun _ => 0, fun _ => none⟩ sampleRows
    none 2 2 =
        some b ∧ b.pks = [1, 2, 10] ∧
      ∃ asked result, runInference (fun _ => true) (fun t => .ok (t.map Char.toNat))
          (fun _ texts => .ok (texts.map fun t => [t.length])) (fun _ vecs => .ok vecs) b =
          some (asked, result) ∧
        ((∃ e, result = .error e) ∨ ∃ results, result = .ok results ∧
          List.Forall₂ (Own (fun _ => true) (fun t => .ok (t.map Char.toNat))
            (fun _ texts => .ok (texts.map fun t => [t.length])) (fun _ vecs => .ok vecs) b.newDim
            asked) b.payloads results) := by
  have hread : ∃ b, MigrationBatch.ofRead sampleTexts
    ⟨false, 4, fun _ => 0, fun _ => none⟩ sampleRows
      none 2 2 = some b ∧ b.pks = [1, 2, 10] := ⟨_, rfl, rfl⟩
  obtain ⟨b, hb, hpks⟩ := hread
  obtain ⟨asked, result, hrun, hor, -⟩ := driver_aligned (F := Nat) (fun _ => true)
    (fun t => .ok (t.map Char.toNat)) (fun _ texts => .ok (texts.map fun t => [t.length]))
    (fun _ vecs => .ok vecs) b
  exact ⟨b, hb, hpks, asked, result, hrun, hor⟩

/-! ## 7. The rows as the read sees them -/

section filled

/-- The column is NULL where the read is to find it so. -/
def Shows {X : Type} (t : Watermark.Table K X) (col : NewColumn K F) : Prop :=
  ∀ p ∈ t.rows, p.2.pending = true ↔ col p.1 = some none

/-- The row has a vector for its result. -/
def embedded (b : MigrationBatch K) (results : List (RowResult F)) (k : K) : Bool :=
  (b.pks.zip results).any fun p => decide (p.1 = k) && match p.2 with
    | .vector _ => true
    | .skip _ => false

variable {b : MigrationBatch K} {results : List (RowResult F)}

theorem embedded_iff {k : K} : embedded b results k = true ↔
    ∃ (i : Nat) (v : List F), b.pks[i]? = some k ∧ results[i]? = some (.vector v) := by
  rw [embedded, any_eq_true]
  constructor
  · intro h
    obtain ⟨⟨pk, row⟩, hmem, h⟩ := h
    obtain ⟨i, hi⟩ := mem_iff_getElem?.mp hmem
    obtain ⟨hpk, hrow⟩ := List.getElem?_zip_eq_some.mp hi
    cases row with
    | vector v =>
      simp only [Bool.and_true, decide_eq_true_eq] at h
      exact ⟨i, v, h ▸ hpk, hrow⟩
    | skip reason => simp at h
  · intro h
    obtain ⟨i, v, hpk, hrow⟩ := h
    exact ⟨(k, .vector v), mem_of_getElem? (List.getElem?_zip_eq_some.mpr ⟨hpk, hrow⟩), by simp⟩

/-- What the guarded write leaves is not NULL. -/
theorem written_ne (old : Option (Option (List F))) (v : List F) : written old v ≠ some none := by
  unfold written
  split
  · simp
  · assumption

variable {κ : Type} [LinearOrder κ] {R : Watermark.Reader K κ Text} {q : Watermark.Request K Text}
  {t : Watermark.Table K Text} {lastPk : Option Text} {oldDim newDim : Int}

omit [DecidableEq K] in
theorem ofRead_eq_some (h : MigrationBatch.ofRead R q t lastPk oldDim newDim = some b) :
    ∃ rows, Watermark.readMigrationBatch R q t lastPk = .work rows ∧ b.pks = rows.map Prod.fst ∧
      b.payloads = rows.map Prod.snd := by
  unfold MigrationBatch.ofRead at h
  split at h
  · rename_i rows hr
    cases h
    exact ⟨rows, hr, rfl, rfl⟩
  · cases h

variable {finite : F → Bool} {parseVector : Text → Except Text (List F)}
  {embed : Nat → List Text → Except ClientError (List (List F))}
  {convert : Nat → List (List F) → Except ClientError (List (List F))} {asked : Asked F}
  {p : Progress K} {col : NewColumn K F} {out : Ended K F}

/-- **The write-back fills the rows that have vectors.** After a batch that was read and applied,
    the column and the watermark are what the next read is said to find. -/
theorem apply_fills (hb : MigrationBatch.ofRead R q t lastPk oldDim newDim = some b)
    (hown : List.Forall₂ (Own finite parseVector embed convert b.newDim asked) b.payloads results)
    (hP : Placed b (.ok results) p col out) (ha : out.applied ≠ none)
    {m : Watermark.Migration K Text} (hm : Shows m.table col) :
    ∃ rows, Watermark.readMigrationBatch R q t lastPk = .work rows ∧
      Shows (Watermark.applyMigrationBatch R (embedded b results) m rows).table out.column ∧
      (Watermark.applyMigrationBatch R (embedded b results) m rows).lastPk =
        out.progress.lastPk.map R.pk.text := by
  obtain ⟨rows, hread, hpks, hpay⟩ := ofRead_eq_some hb
  refine ⟨rows, hread, ?_⟩
  have hP' := hP
  cases hP' with
  | held hc hp ha' => exact absurd ha' ha
  | @done results' writes skipped hr ha once vector skip others watermark =>
    cases hr
    refine ⟨fun p' hp' => ?_, ?_⟩
    · obtain ⟨p₀, hp₀, rfl⟩ := mem_map.mp hp'
      split
      · -- a row of the batch with a vector
        rename_i hw
        obtain ⟨r, hr, hk⟩ := mem_map.mp hw
        obtain ⟨-, hr⟩ := mem_filter.mp hr
        obtain ⟨i, v, hpk, hv⟩ := embedded_iff.mp (Bool.and_eq_true_iff.mp hr).2
        have hcol := (vector i _ v hpk hv).2
        rw [hk] at hcol
        simp only [hcol, Bool.false_eq_true, false_iff]
        exact written_ne _ v
      · -- any other row is left as it is
        rename_i hw
        have hsame : out.column p₀.1 = col p₀.1 := by
          cases hP.landed hown.length_eq.symm ha p₀.1 with
          | other _ hcol _ => exact hcol
          | skip _ _ hcol _ => exact hcol
          | @vector i v hi hv _ _ =>
            refine absurd ?_ hw
            have hemb := embedded_iff.mpr ⟨i, v, hi, hv⟩
            rw [hpks, List.getElem?_map] at hi
            obtain ⟨⟨pk, payload⟩, hr, hk⟩ := Option.map_eq_some_iff.mp hi
            -- a row with a reason in place of a payload has no vector
            have hsent : payload.isOk = true := by
              have hp : b.payloads[i]? = some payload := by
                rw [hpay, List.getElem?_map, hr]
                rfl
              have hrow := (forall₂_iff_zip.mp hown).2
                (mem_of_getElem? (List.getElem?_zip_eq_some.mpr ⟨hp, hv⟩))
              cases payload with
              | error reason => cases hrow
              | ok x => rfl
            refine mem_map.mpr ⟨(pk, payload), mem_filter.mpr ⟨mem_of_getElem? hr, ?_⟩, hk⟩
            exact Bool.and_eq_true_iff.mpr ⟨hsent, hk ▸ hemb⟩
        rw [hsame]
        exact hm p₀ hp₀
    · rw [watermark, hpks, List.getLast?_map, Option.map_map]
      rfl

end filled

end Postvec.MigrationDriver
