import Postvec.Extension.ColumnSync
import Postvec.Extension.MigrationDriver

/-!
# A migration of a column-mode entry under `convert`

While a migration is live each row has two vector columns. Fresh embeds are routed to the new one
(`putNew`), and the driver fills it for the other rows, batch by batch, with the converted old
vectors. The machine puts together writer transactions and job steps (`Extension/Column.lean`), the
read of a batch (`Extension/Watermark.lean`) over the committed rows, and its write-back
(`Extension/MigrationDriver.lean`), which waits for a transaction that has updated a row it is to
write. Between the read of a batch and its write any other step may happen.

* `stale_migration_reachable`: an update that coalesces into a pending job while that is claimed
  ends with the new model's vector of the old text, and the driver finishes without a job behind;
* **`migration_keeps_vectors`**: where rows are read in key order and the steps are `careful`, once
  the driver has finished, a row with a source has the vector of its text by the new model, or the
  conversion of the old vector it has, or was counted once as skipped, or has a live or dead job;
  and no conversion overwrites a vector.

How often a key was counted as skipped (`skips`) is not in the source: `rows_skipped` is a number.
-/

namespace Postvec

open Machine List Option
open MigrationDriver
open Watermark (Reader Ahead nth)

/-! ## 1. The driver -/

/-- The vector columns of a row during a migration. -/
structure MigCols (V : Type*) where
  old : Option V
  new : Option V
deriving DecidableEq, Repr

instance {V : Type*} : Inhabited (MigCols V) := ⟨⟨none, none⟩⟩

/-- What `apply_group` writes while migrating: a vector to the new column, NULL to both. -/
def putNew {V : Type*} : Option V → MigCols V → MigCols V
  | some v, c => { c with new := some v }
  | none, _ => ⟨none, none⟩

/-- The conversion route. -/
structure Converter (T F : Type*) where
  embedOld : T → List F
  convert : List F → List F
  finite : F → Bool
  oldDim : Int
  newDim : Int
  /-- a stored vector as the database renders it, and as the driver reads it -/
  render : List F → Text
  parseVector : Text → Except Text (List F)
  parse_render : ∀ v, parseVector (render v) = .ok v

/-- The `postvec.migrations` row, the batch the driver has read and not written, and how often a key
    was counted as skipped. -/
structure Driver (K : Type) where
  progress : Progress K
  finished : Bool
  batch : Option (MigrationBatch K)
  skips : K → Nat

structure MigSys (K δ T F : Type) where
  col : ColumnSys K δ T (MigCols (List F))
  drv : Driver K

inductive MigAct (K δ : Type) where
  | column (a : ColumnAct K δ)
  /-- a read, with the order the database gives to rows that tie -/
  | readBatch (limit : Nat) (rank : K → Nat)
  | applyBatch
  /-- inference or the write-back fails: the watermark stays -/
  | failBatch

variable {K δ T F κ : Type} [DecidableEq K] [LinearOrder κ]

/-- A row as the read sees it. -/
def Converter.rowView (M : Converter T F) (r : Row δ (MigCols (List F))) : Watermark.Row Text :=
  ⟨r.cols.new.isNone, r.cols.old.isSome, r.cols.old.map M.render⟩

/-- The committed rows as the read sees them. -/
def Converter.view (M : Converter T F) (rows : Table K (Row δ (MigCols (List F)))) :
    Watermark.Table K Text where
  rows := rows.dom.dedup.filterMap fun k => (rows.get k).map fun r => (k, M.rowView r)
  keys := by
    rw [map_filterMap]
    refine (nodup_dedup _).filterMap fun k k' b hb hb' => ?_
    obtain ⟨_, hp, rfl⟩ := map_eq_some_iff.mp hb
    obtain ⟨_, hp', e⟩ := map_eq_some_iff.mp hb'
    obtain ⟨_, -, rfl⟩ := map_eq_some_iff.mp hp
    obtain ⟨_, -, rfl⟩ := map_eq_some_iff.mp hp'
    exact e.symm

/-- The new column, as the write-back finds it. -/
def newColumn (rows : Table K (Row δ (MigCols (List F)))) : NewColumn K F :=
  fun k => (rows.get k).map fun r => r.cols.new

/-- What comes back for a payload: its conversion, checked, or the reason it was skipped for. -/
def Converter.result (M : Converter T F) (p : Except Text Text) : RowResult F :=
  match parsePayload M.parseVector p with
  | .ok v => validate M.finite M.newDim (.vector (M.convert v))
  | .error reason => .skip reason

/-- `read_migration_batch`, in a transaction of its own. A rejected query is retried later. -/
def readBatch (R : Reader K κ Text) (M : Converter T F) (limit : Nat) (rank : K → Nat)
    (s : MigSys K δ T F) : Option (MigSys K δ T F) :=
  let q : Watermark.Request K Text := ⟨false, limit, rank, fun _ => none⟩
  let t := M.view s.col.db.rows
  let mark := s.drv.progress.lastPk.map R.pk.text
  if s.drv.finished || s.drv.batch.isSome || s.col.db.truncated then none
  else
    match Watermark.readMigrationBatch R q t mark with
    | .rejected =>
      some { s with drv := { s.drv with progress := setMigrationError s.drv.progress } }
    | .finished => some { s with drv := { s.drv with
        progress := { s.drv.progress with state := .other }
        finished := true } }
    | .work _ =>
      some { s with drv := { s.drv with
        batch := MigrationBatch.ofRead R q t mark M.oldDim M.newDim } }

/-- The write-back waits for a `TRUNCATE`, and for a transaction that has updated a row it
    writes. -/
def waits (db : Db K δ (MigCols (List F))) (writes : List (K × List F)) : Bool :=
  db.truncated || writes.any fun w =>
    db.rowLocked w.1 && (db.rows.get w.1).any fun r => r.cols.new.isNone

/-- A row with the column as the write-back leaves it. -/
def landedRow (x : Nat) (col : NewColumn K F) (k : K) (r : Row δ (MigCols (List F))) :
    Row δ (MigCols (List F)) :=
  { r with
    cols := { r.cols with new := (col k).join }
    xmin := if r.cols.new.isNone && (col k).join.isSome then x else r.xmin }

/-- The system once a batch is written back. -/
def MigSys.landed (s : MigSys K δ T F) (out : MigrationDriver.Ended K F) : MigSys K δ T F where
  col := { s.col with db := { s.col.db with
    rows := s.col.db.rows.mapWith (landedRow s.col.db.nextXid out.column)
    nextXid := s.col.db.nextXid + 1 } }
  drv := { s.drv with
    progress := out.progress
    batch := none
    skips := fun k => s.drv.skips k + (out.applied.elim 0 fun a => a.2.count k) }

/-- `apply_migration_batch`, in a transaction of its own. -/
def applyBatch (M : Converter T F) (s : MigSys K δ T F) : Option (MigSys K δ T F) :=
  match s.drv.batch with
  | none => none
  | some b =>
    let results := b.payloads.map M.result
    if waits s.col.db (sort (b.pks.zip results)).1 then none
    else some (s.landed (drain b (.ok results) false ⟨true, none, none⟩ s.drv.progress
      (newColumn s.col.db.rows)))

/-- One step of the machine. -/
def MigSys.step [BEq δ] (E : ColumnEntry δ T (List F)) (R : Reader K κ Text) (M : Converter T F)
    (s : MigSys K δ T F) : MigAct K δ → Option (MigSys K δ T F)
  | .column a => (s.col.step E putNew a).map fun col => { s with col }
  | .readBatch limit rank => readBatch R M limit rank s
  | .applyBatch => applyBatch M s
  | .failBatch =>
    some { s with drv := { s.drv with
      progress := setMigrationError s.drv.progress
      batch := none } }

/-! ## 2. What comes back -/

section Inference

variable {M : Converter T F} {b : MigrationBatch K}

omit [DecidableEq K] in
/-- **What a client that converts gives.** Where inference of a converting batch ends with results,
    they are those of the payloads. -/
theorem result_of_inference {embed : Nat → List Text → Except Bisection.ClientError (List (List F))}
    {asked : Asked F} {results : List (RowResult F)} (hre : b.reembed = false)
    (hdim : b.newDim = M.newDim)
    (h : runInference M.finite M.parseVector embed (fun _ vecs => .ok (vecs.map M.convert)) b =
      some (asked, .ok results)) : results = b.payloads.map M.result := by
  obtain ⟨asked', result, hrun, hown⟩ := runInference_spec M.finite M.parseVector embed
    (fun _ vecs => .ok (vecs.map M.convert)) b
  rw [h] at hrun
  cases hrun
  have hasked : ∃ requests, asked = .vectors requests := by
    unfold runInference at h
    rw [hre, if_neg Bool.false_ne_true] at h
    exact ⟨_, finish_asked h⟩
  obtain ⟨requests, rfl⟩ := hasked
  rw [← forall₂_eq_eq_eq, forall₂_map_right_iff]
  refine (hown results rfl).flip.imp fun row p hp => ?_
  unfold Converter.result
  cases p with
  | error reason => exact hp
  | ok text =>
    unfold parsePayload
    dsimp only at hp ⊢
    cases hparse : M.parseVector text with
    | error e =>
      rw [hparse] at hp
      exact hp
    | ok v =>
      rw [hparse] at hp
      obtain ⟨w, hgiven, hrow⟩ := hp
      obtain ⟨_, req, _, ys, -, hs, j, hv, hw⟩ := hgiven
      -- the answer at the payload's place is its conversion
      unfold convertReply at hs
      dsimp only at hs
      rw [if_pos (length_map _)] at hs
      cases hs
      rw [List.getElem?_map, hv] at hw
      cases hw
      rw [hrow, hdim]
      rfl

end Inference

/-! ## 3. The invariant -/

section Invariant

variable {E : ColumnEntry δ T (List F)} {R : Reader K κ Text} {M : Converter T F}
  {s s' : MigSys K δ T F} {d : Driver K} {k : K} {r : Row δ (MigCols (List F))}

/-- A batch that was read has the row's old vector, or is skipping it, or ends before it. -/
def Covers (R : Reader K κ Text) (M : Converter T F) (b : MigrationBatch K) (k : K) (o : List F) :
    Prop :=
  (∃ (i : Nat) (p : Except Text Text), b.pks[i]? = some k ∧ b.payloads[i]? = some p ∧
    ∀ text, p = .ok text → text = M.render o) ∨
  ∀ last ∈ b.pks.getLast?, R.pk.order last < R.pk.order k

/-- What is said of a row no job stands for: it has no source, or the vector of its text; or no job
    has written it since the migration began, and it is converted, passed and counted once, or still
    ahead of the watermark. -/
inductive Kept (E : ColumnEntry δ T (List F)) (R : Reader K κ Text) (M : Converter T F)
    (d : Driver K)
    (k : K) (r : Row δ (MigCols (List F))) : Prop where
  | sourceless : E.text r.doc = none → Kept E R M d k r
  | embedded {t : T} : E.text r.doc = some t → r.cols.new = some (E.embed t) → Kept E R M d k r
  | converted {o : List F} : r.cols.old = some o → r.cols.new = some (M.convert o) →
    Kept E R M d k r
  | skipped : r.cols.new = none → d.skips k = 1 → ¬ Ahead R d.progress.lastPk k → Kept E R M d k r
  | ahead {o : List F} : r.cols.old = some o → r.cols.new = none → d.skips k = 0 →
      Ahead R d.progress.lastPk k → d.finished = false → (∀ b ∈ d.batch, Covers R M b k o) →
      Kept E R M d k r

/-- What is said of the driver. -/
structure Driver.Sound (R : Reader K κ Text) (d : Driver K) : Prop where
  running : d.finished = false → d.progress.state = .running
  batch : ∀ b ∈ d.batch, d.finished = false ∧ ∃ last, b.pks.getLast? = some last ∧
    ∀ k ∈ b.pks, Ahead R d.progress.lastPk k ∧ R.pk.order k ≤ R.pk.order last

/-- The invariant: the one of column-mode sync, with rows kept, and the driver's. -/
structure MigInv (E : ColumnEntry δ T (List F)) (R : Reader K κ Text) (M : Converter T F)
    (s : MigSys K δ T F) : Prop where
  col : ColumnInv E (Kept E R M s.drv) s.col
  drv : s.drv.Sound R

omit [DecidableEq K] in
/-- A row that keeps its text, its old vector and any new one is kept, if it is where there is no
    new one. -/
theorem Kept.carry {d' : Driver K} {r' : Row δ (MigCols (List F))} (h : Kept E R M d k r)
    (ht : E.text r'.doc = E.text r.doc) (ho : r'.cols.old = r.cols.old)
    (hn : ∀ v, r.cols.new = some v → r'.cols.new = some v)
    (hskipped : r.cols.new = none → d.skips k = 1 → ¬ Ahead R d.progress.lastPk k →
      Kept E R M d' k r')
    (hahead : ∀ o, r.cols.old = some o → r.cols.new = none → d.skips k = 0 →
      Ahead R d.progress.lastPk k → d.finished = false → (∀ b ∈ d.batch, Covers R M b k o) →
      Kept E R M d' k r') : Kept E R M d' k r' := by
  cases h with
  | sourceless hd => exact .sourceless (ht.trans hd)
  | embedded he hv => exact .embedded (ht.trans he) (hn _ hv)
  | converted hold hv => exact .converted (ho.trans hold) (hn _ hv)
  | skipped hv h1 ha => exact hskipped hv h1 ha
  | ahead hold hv h0 ha hf hb => exact hahead _ hold hv h0 ha hf hb

omit [DecidableEq K] in
theorem settles_kept (E : ColumnEntry δ T (List F)) (R : Reader K κ Text) (M : Converter T F)
    (d : Driver K) : Settles E putNew (Kept E R M d) where
  congr := by
    intro k r r' h ht hc
    refine h.carry ht (by rw [hc]) (fun v hv => hc ▸ hv) (fun hn h1 ha => ?_)
      fun o ho hn h0 ha hf hb => ?_
    · exact .skipped (hc ▸ hn) h1 ha
    · exact .ahead (hc ▸ ho) (hc ▸ hn) h0 ha hf hb
  put := by
    intro k r x
    cases ht : E.text r.doc with
    | none => exact .sourceless ht
    | some t => exact .embedded ht rfl
  blank := fun _ _ _ hd => .sourceless hd

/-! ## 4. The driver's steps -/

theorem mem_view {rows : Table K (Row δ (MigCols (List F)))} {w : Watermark.Row Text} :
    (k, w) ∈ (M.view rows).rows ↔ ∃ r, rows.get k = some r ∧ w = M.rowView r := by
  simp only [Converter.view, mem_filterMap, mem_dedup, map_eq_some_iff, Prod.mk.injEq]
  constructor
  · intro h
    obtain ⟨_, -, r, hr, rfl, rfl⟩ := h
    exact ⟨r, hr, rfl⟩
  · intro h
    obtain ⟨r, hr, rfl⟩ := h
    exact ⟨k, rows.complete k r hr, r, hr, rfl, rfl⟩

/-- A row that waits for the driver is among those a read looks at. -/
theorem mem_beyond_view {rows : Table K (Row δ (MigCols (List F)))} {w : Option K} {o : List F}
    (hr : rows.get k = some r) (ho : r.cols.old = some o) (hn : r.cols.new = none)
    (ha : Ahead R w k) : (k, M.rowView r) ∈ (M.view rows).beyond R (w.map R.pk.text) := by
  rw [Watermark.mem_beyond]
  exact ⟨mem_view.mpr ⟨r, hr, rfl⟩, by simp [Converter.rowView, hn],
    by simp [Converter.rowView, ho], ha⟩

omit [DecidableEq K] in
/-- Only what is said of rows changes. -/
theorem ColumnInv.regard {good good' : K → Row δ (MigCols (List F)) → Prop}
    {c : ColumnSys K δ T (MigCols (List F))} (hI : ColumnInv E good c)
    (hg : ∀ k r, c.db.rows.get k = some r → good k r → good' k r) : ColumnInv E good' c :=
  { hI with settled := fun k r hr => (hI.settled k r hr).imp_left (hg k r hr) }

/-- What a batch that was read has of a row that waits for the driver. -/
theorem covers_read {q : Watermark.Request K Text} {rows : Table K (Row δ (MigCols (List F)))}
    {w : Option K} {b : MigrationBatch K} {o : List F} (hR : R.InKeyOrder false)
    (hq : q.reembed = false)
    (hb : MigrationBatch.ofRead R q (M.view rows) (w.map R.pk.text) M.oldDim M.newDim = some b)
    (hr : rows.get k = some r) (ho : r.cols.old = some o) (hn : r.cols.new = none)
    (ha : Ahead R w k) : Covers R M b k o := by
  obtain ⟨read, hread, hpks, hpay⟩ := ofRead_eq_some hb
  obtain ⟨last, hlast, -, hcover⟩ := Watermark.work_covers (hq ▸ hR) hread
  rcases hcover _ (mem_beyond_view hr ho hn ha) with hin | hover
  · refine .inl ?_
    rw [← hpks] at hin
    obtain ⟨i, hi⟩ := mem_iff_getElem?.mp hin
    rw [hpks, List.getElem?_map] at hi
    obtain ⟨⟨k', p⟩, hp, rfl⟩ := map_eq_some_iff.mp hi
    refine ⟨i, p, by rw [hpks, List.getElem?_map, hp]; rfl,
      by rw [hpay, List.getElem?_map, hp]; rfl, fun text e => ?_⟩
    -- the payload is the one of the row under the key
    obtain ⟨v, hv, hpv⟩ := Watermark.work_payload hq hread (mem_of_getElem? hp)
    obtain ⟨r', hr', rfl⟩ := mem_view.mp (Watermark.mem_beyond.mp hv).1
    rw [hr] at hr'
    cases hr'
    subst e
    simp only [Converter.rowView, ho, map_some, Watermark.convertPayload] at hpv
    split at hpv
    · cases hpv
      rfl
    · cases hpv
  · refine .inr fun last' h => ?_
    rw [hpks, hlast] at h
    cases h
    exact hover

/-- The driver reads a batch, or finds nothing left to convert. -/
theorem MigInv.readBatch (hI : MigInv E R M s) (hR : R.InKeyOrder false) {limit : Nat}
    {rank : K → Nat} (h : readBatch R M limit rank s = some s') : MigInv E R M s' := by
  unfold Postvec.readBatch at h
  dsimp only at h
  split at h
  · cases h
  rename_i hfree
  simp only [Bool.or_eq_true, not_or, Bool.not_eq_true, isSome_eq_false_iff,
    isNone_iff_eq_none] at hfree
  obtain ⟨⟨hfin, hnone⟩, -⟩ := hfree
  have hlast := setMigrationError_lastPk s.drv.progress
  split at h
  · cases h
    refine ⟨hI.col.regard fun k r _ hk => ?_, fun hf => ?_, fun b hb => ?_⟩
    · refine hk.carry rfl rfl (fun _ h => h) (fun hn h1 ha => .skipped hn h1 ?_)
        fun o ho hn h0 ha hf hb => .ahead ho hn h0 ?_ hf hb
      · rw [hlast]
        exact ha
      · rw [hlast]
        exact ha
    · exact (setMigrationError_state _).trans (hI.drv.running hf)
    · rw [hlast]
      exact hI.drv.batch b hb
  · rename_i hread
    cases h
    refine ⟨hI.col.regard fun k r hr hk => ?_, ⟨fun hf => ?_, fun b hb => ?_⟩⟩
    · refine hk.carry rfl rfl (fun _ h => h) (fun hn h1 ha => .skipped hn h1 ha)
        fun o ho hn h0 ha _ _ => ?_
      -- it would have been read
      have hnil := Watermark.read_reads (q := ⟨false, limit, rank, fun _ => none⟩) hR
        (M.view s.col.db.rows) (s.drv.progress.lastPk.map R.pk.text)
      rw [hread] at hnil
      have hmem := mem_beyond_view (M := M) hr ho hn ha
      rw [show (M.view s.col.db.rows).beyond R _ = [] from hnil] at hmem
      cases hmem
    · cases hf
    · rw [show s.drv.batch = some b from hb] at hnone
      cases hnone
  · rename_i read hread
    cases h
    refine ⟨hI.col.regard fun k r hr hk => ?_, hI.drv.running, fun b hb => ⟨hfin, ?_⟩⟩
    · refine hk.carry rfl rfl (fun _ h => h) (fun hn h1 ha => .skipped hn h1 ha)
        fun o ho hn h0 ha hf _ => .ahead ho hn h0 ha hf fun b hb => ?_
      exact covers_read hR rfl hb hr ho hn ha
    · obtain ⟨read', hread', hpks, -⟩ := ofRead_eq_some hb
      obtain ⟨last, hlast, hle, -⟩ := Watermark.work_covers hR hread'
      rw [hpks]
      refine ⟨last, hlast, fun k hk => ⟨?_, hle k hk⟩⟩
      obtain ⟨p, hp, rfl⟩ := List.mem_map.mp hk
      obtain ⟨v, hv, -⟩ := Watermark.work_payload rfl hread' hp
      exact (Watermark.mem_beyond.mp hv).2.2.2

omit [DecidableEq K] in
theorem landedRow_same {x : Nat} {col : NewColumn K F} (h : (col k).join = r.cols.new) :
    landedRow x col k r = r := by
  obtain ⟨doc, ⟨old, new⟩, x₀⟩ := r
  cases new with
  | none | some => simp [landedRow, h]

omit [DecidableEq K] in
/-- A vector that comes back for a row's old vector is its conversion. -/
theorem Converter.result_vector {p : Except Text Text} {o v : List F} (h : M.result p = .vector v)
    (hp : ∀ text, p = .ok text → text = M.render o) : v = M.convert o := by
  unfold Converter.result at h
  cases p with
  | error reason => cases h
  | ok text =>
    have hparse : parsePayload M.parseVector (.ok text) = .ok o := by
      rw [hp text rfl, parsePayload, M.parse_render]
      rfl
    rw [hparse] at h
    exact validate_vector h

/-- What the write-back of a batch makes of the row under a key: nothing, or the vector it has for
    it goes where there was none. -/
theorem landedRow_cases {b : MigrationBatch K} {results : List (RowResult F)}
    {out : MigrationDriver.Ended K F}
    {skipped : List K} {rows : Table K (Row δ (MigCols (List F)))} {x : Nat}
    (h : Landed b results (newColumn rows) out skipped k) (hr : rows.get k = some r) :
    landedRow x out.column k r = r ∨ ∃ (i : Nat) (v : List F), b.pks[i]? = some k ∧
      results[i]? = some (.vector v) ∧ r.cols.new = none ∧
      landedRow x out.column k r = { r with cols := { r.cols with new := some v }, xmin := x } := by
  have hcol : newColumn rows k = some r.cols.new := by simp [newColumn, hr]
  cases h with
  | other _ h _ | skip _ _ h _ =>
    refine .inl (landedRow_same ?_)
    rw [h, hcol]
    rfl
  | @vector i v hi hv h _ =>
    rw [hcol] at h
    cases hn : r.cols.new with
    | some v' =>
      refine .inl (landedRow_same ?_)
      rw [h, hn]
      rfl
    | none =>
      refine .inr ⟨i, v, hi, hv, rfl, ?_⟩
      rw [hn] at h
      simp [landedRow, h, hn, written]

omit [DecidableEq K] in
/-- The watermark moves to a key that was ahead of it: what was behind it still is. -/
theorem not_ahead_of_not_ahead {w : Option K} {last : K} (hl : Ahead R w last)
    (hk : ¬ Ahead R w k) :
    ¬ Ahead R (some last) k := by
  intro h
  refine hk fun m hm => ?_
  exact lt_trans (hl m hm) (h last rfl)

/-- A row that was kept is kept once its batch is written back. -/
theorem Kept.landed {d' : Driver K} {b : MigrationBatch K} {out : MigrationDriver.Ended K F}
    {skipped : List K} {rows : Table K (Row δ (MigCols (List F)))} {x : Nat} {last : K}
    (hk : Kept E R M d k r) (hr : rows.get k = some r) (hb : d.batch = some b)
    (hlast : b.pks.getLast? = some last)
    (hall : ∀ k ∈ b.pks, Ahead R d.progress.lastPk k ∧ R.pk.order k ≤ R.pk.order last)
    (hl : Landed b (b.payloads.map M.result) (newColumn rows) out skipped k)
    (hmark : d'.progress.lastPk = some last) (hfin : d'.finished = d.finished)
    (hbatch : d'.batch = none) (hskips : d'.skips k = d.skips k + skipped.count k) :
    Kept E R M d' k (landedRow x out.column k r) := by
  -- a key the batch does not have is left alone
  have hother : k ∉ b.pks → landedRow x out.column k r = r ∧ d'.skips k = d.skips k := by
    intro hk
    cases hl with
    | other _ h h0 =>
      refine ⟨landedRow_same ?_, by rw [hskips, h0]; rfl⟩
      rw [h, newColumn, hr]
      rfl
    | vector hi _ _ _ | skip hi _ _ _ => exact absurd (mem_of_getElem? hi) hk
  refine hk.carry rfl rfl (fun v hv => ?_) (fun hn h1 ha => ?_) fun o ho hn h0 ha hf hcov => ?_
  · rcases landedRow_cases hl hr with h | ⟨i, v', hi, hv', hn, -⟩
    · rw [h, hv]
    · rw [hn] at hv
      cases hv
  · obtain ⟨hsame, h0⟩ := hother fun hin => ha (hall k hin).1
    rw [hsame]
    refine .skipped hn (h0.trans h1) ?_
    rw [hmark]
    exact not_ahead_of_not_ahead (hall last (mem_of_getLast? hlast)).1 ha
  · rcases hcov b hb with ⟨i, p, hi, hp, htext⟩ | hover
    · have hbehind : ¬ Ahead R d'.progress.lastPk k := by
        rw [hmark]
        exact fun h => absurd (h last rfl) (not_lt.mpr (hall k (mem_of_getElem? hi)).2)
      cases hl with
      | other hk _ _ => exact absurd (mem_of_getElem? hi) hk
      | @vector j v hj hv h _ =>
        -- the payload at the key's place
        have hij : j = i := by
          obtain ⟨hlt, e⟩ := List.getElem?_eq_some_iff.mp hi
          obtain ⟨hlt', e'⟩ := List.getElem?_eq_some_iff.mp hj
          exact b.keys.getElem_inj_iff.mp (e'.trans e.symm)
        rw [hij, List.getElem?_map, hp] at hv
        have hv : v = M.convert o := M.result_vector (Option.some.inj hv) htext
        refine .converted ho ?_
        simp [landedRow, h, newColumn, hr, hn, written, hv]
      | skip _ _ h h1 =>
        have hsame : landedRow x out.column k r = r := by
          refine landedRow_same ?_
          rw [h, newColumn, hr]
          rfl
        rw [hsame]
        exact .skipped hn (by rw [hskips, h0, h1]) hbehind
    · have hover := hover last hlast
      obtain ⟨hsame, hsk⟩ := hother fun hin => absurd hover (not_lt.mpr (hall k hin).2)
      rw [hsame]
      refine .ahead ho hn (hsk.trans h0) ?_ (hfin.trans hf) fun b hb => ?_
      · rw [hmark]
        intro m hm
        cases hm
        exact hover
      · rw [hbatch] at hb
        cases hb

/-- What the write-back of `b` does. -/
structure Applied (M : Converter T F) (s s' : MigSys K δ T F) (b : MigrationBatch K)
    (out : MigrationDriver.Ended K F) : Prop where
  batch : s.drv.batch = some b
  landed : s' = s.landed out
  free : waits s.col.db (sort (b.pks.zip (b.payloads.map M.result))).1 = false
  applied : out.applied = some (sort (b.pks.zip (b.payloads.map M.result)))
  mark : out.progress.lastPk = b.pks.getLast?
  running : out.progress.state = .running
  row : ∀ k, Landed b (b.payloads.map M.result) (newColumn s.col.db.rows) out
    (sort (b.pks.zip (b.payloads.map M.result))).2 k

theorem applyBatch_applied (hd : s.drv.Sound R) (h : applyBatch M s = some s') :
    ∃ b out, Applied M s s' b out := by
  unfold applyBatch at h
  split at h
  · cases h
  rename_i b hb
  have hrun := hd.running (hd.batch b hb).1
  dsimp only at h
  split at h
  · cases h
  rename_i hfree
  have hlen : (b.payloads.map M.result).length = b.payloads.length := length_map _
  have hP := apply_placed b ⟨true, none, none⟩ s.drv.progress (newColumn s.col.db.rows) hlen
  have happ : (MigrationDriver.applyMigrationBatch b (b.payloads.map M.result) ⟨true, none, none⟩
      s.drv.progress (newColumn s.col.db.rows)).applied =
      some (sort (b.pks.zip (b.payloads.map M.result))) := by
    simp [applyMigrationBatch, hrun]
  refine ⟨b, _, hb, (Option.some.inj h).symm, Bool.eq_false_iff.mpr hfree, happ, ?_, ?_, fun k =>
    hP.landed hlen happ k⟩
  · simp [drain, applyMigrationBatch, hrun]
  · simp [drain, applyMigrationBatch, hrun]

/-- The driver writes a batch. -/
theorem MigInv.applyBatch (hI : MigInv E R M s) (h : applyBatch M s = some s') :
    MigInv E R M s' := by
  obtain ⟨b, out, hA⟩ := applyBatch_applied hI.drv h
  obtain ⟨-, last, hlast, hall⟩ := hI.drv.batch b hA.batch
  have hfree := hA.free
  simp only [waits, Bool.or_eq_false_iff] at hfree
  rw [hA.landed]
  refine ⟨hI.col.rewrite ⟨hfree.1, fun k r' hr' => ?_⟩ fun k r r' hr hr' hk => ?_,
    ⟨fun _ => hA.running, fun b hb => by cases hb⟩⟩
  · obtain ⟨r, hr, rfl⟩ := map_eq_some_iff.mp hr'
    refine ⟨r, hr, rfl, ?_⟩
    rcases landedRow_cases (hA.row k) hr with h | ⟨i, v, hi, hv, hn, -⟩
    · exact .inl h
    · -- a row that is written is not locked
      have hw := (mem_sort _ k).1 v (mem_of_getElem? (List.getElem?_zip_eq_some.mpr ⟨hi, hv⟩))
      have := any_eq_false.mp hfree.2 _ hw
      exact .inr (by simpa [hr, hn] using this)
  · obtain ⟨r₀, hr₀, rfl⟩ := map_eq_some_iff.mp hr'
    rw [hr] at hr₀
    cases hr₀
    refine hk.landed hr hA.batch hlast hall (hA.row k) (hA.mark.trans hlast) rfl rfl ?_
    simp [MigSys.landed, hA.applied]

/-- A write-back leaves every vector that is in the new column. -/
theorem Applied.new_kept {b : MigrationBatch K} {out : MigrationDriver.Ended K F}
    (hA : Applied M s s' b out) {v : List F} (hr : s.col.db.rows.get k = some r)
    (hv : r.cols.new = some v) : ∃ r', s'.col.db.rows.get k = some r' ∧ r'.cols.new = some v := by
  rw [hA.landed]
  refine ⟨landedRow s.col.db.nextXid out.column k r, map_eq_some_iff.mpr ⟨r, hr, rfl⟩, ?_⟩
  rcases landedRow_cases (hA.row k) hr with h | ⟨_, _, _, _, hn, -⟩
  · rw [h, hv]
  · rw [hn] at hv
    cases hv

/-! ## 5. Whole runs -/

/-- The condition on a step, as for the entry without a migration. -/
def MigSys.careful [BEq δ] [DecidableEq T] (E : ColumnEntry δ T (List F)) (s : MigSys K δ T F) :
    MigAct K δ → Bool
  | .column a => s.col.careful E a
  | _ => true

/-- One step. -/
theorem MigInv.step [BEq δ] [DecidableEq T] (hI : MigInv E R M s) (hR : R.InKeyOrder false)
    {a : MigAct K δ} (hc : s.careful E a = true) (h : s.step E R M a = some s') :
    MigInv E R M s' := by
  cases a with
  | column a =>
    obtain ⟨col, hcol, rfl⟩ := map_eq_some_iff.mp h
    exact ⟨hI.col.step (settles_kept E R M s.drv) hc hcol, hI.drv⟩
  | readBatch limit rank => exact hI.readBatch hR h
  | applyBatch => exact hI.applyBatch h
  | failBatch =>
    cases h
    refine ⟨hI.col.regard fun k r _ hk => ?_, fun hf => ?_, fun b hb => by cases hb⟩
    · refine hk.carry rfl rfl (fun _ h => h) (fun hn h1 ha => .skipped hn h1 ?_)
        fun o ho hn h0 ha hf _ => .ahead ho hn h0 ?_ hf fun b hb => by cases hb
      · rw [setMigrationError_lastPk]
        exact ha
      · rw [setMigrationError_lastPk]
        exact ha
    · exact (setMigrationError_state _).trans (hI.drv.running hf)

/-- A state runs start from: the migration has just begun, nothing is open or in flight, and every
    row has the old model's vector of its text, a job or a dead job. -/
structure MigSys.Start (E : ColumnEntry δ T (List F)) (M : Converter T F) (s : MigSys K δ T F) :
    Prop where
  txns : ∀ x, s.col.db.txns.get x = none
  inflight : s.col.inflight = []
  drv : s.drv = ⟨⟨.running, none, 0, 0, 0⟩, false, none, fun _ => 0⟩
  rows : ∀ k r, s.col.db.rows.get k = some r → r.cols.new = none ∧
    (r.cols.old = (E.text r.doc).map M.embedOld ∨ s.col.db.queue.Dead k ∨ s.col.db.queue.Live k)

omit [DecidableEq K] in
theorem MigSys.Start.inv (h : s.Start E M) : MigInv E R M s := by
  refine ⟨.of_idle h.txns h.inflight fun k r hr => ?_, ?_⟩
  · obtain ⟨hn, hold⟩ := h.rows k r hr
    refine hold.imp_left fun ho => ?_
    cases ht : E.text r.doc with
    | none => exact .sourceless ht
    | some t =>
      rw [ht] at ho
      rw [h.drv]
      exact .ahead ho hn rfl (fun m hm => by cases hm) rfl fun b hb => by cases hb
  · rw [h.drv]
    exact ⟨fun _ => rfl, fun b hb => by cases hb⟩

/-- **No vector is lost.** In every run of writers, workers and the driver whose steps meet the
    condition, for a reader of rows in key order: once the driver has finished, each row with a
    source has the new model's vector of its text, or the conversion of the old vector it has, or no
    new vector and was counted once as skipped, or has a live or dead job; and at no time does the
    write-back of a batch change a vector in the new column. -/
theorem migration_keeps_vectors [BEq δ] [DecidableEq T] (E : ColumnEntry δ T (List F))
    (R : Reader K κ Text) (M : Converter T F) (hR : R.InKeyOrder false) (s₀ s : MigSys K δ T F)
    (h₀ : s₀.Start E M) (h : Reach (MigSys.step E R M) (fun s a => s.careful E a = true) s₀ s) :
    (s.drv.finished = true → ∀ k r t, s.col.db.rows.get k = some r → E.text r.doc = some t →
      r.cols.new = some (E.embed t) ∨
      (∃ o, r.cols.old = some o ∧ r.cols.new = some (M.convert o)) ∨
      (r.cols.new = none ∧ s.drv.skips k = 1) ∨
      s.col.db.queue.Live k ∨ s.col.db.queue.Dead k) ∧
    (∀ s', s.step E R M .applyBatch = some s' → ∀ k r v, s.col.db.rows.get k = some r →
      r.cols.new = some v → ∃ r', s'.col.db.rows.get k = some r' ∧ r'.cols.new = some v) := by
  have hI : MigInv E R M s := h.invariant h₀.inv fun s a s' hI hc hs => hI.step hR hc hs
  constructor
  · intro hf k r t hr ht
    rcases hI.col.settled k r hr with hk | hd | hl
    · cases hk with
      | sourceless hd =>
        rw [ht] at hd
        cases hd
      | embedded ht' hn =>
        rw [ht] at ht'
        cases ht'
        exact .inl hn
      | converted ho hn => exact .inr (.inl ⟨_, ho, hn⟩)
      | skipped hn h1 _ => exact .inr (.inr (.inl ⟨hn, h1⟩))
      | ahead _ _ _ _ hf' _ =>
        rw [hf] at hf'
        cases hf'
    · exact .inr (.inr (.inr (.inr hd)))
    · exact .inr (.inr (.inr (.inl hl)))
  · intro s' hs' k r v hr hv
    obtain ⟨b, out, hA⟩ := applyBatch_applied hI.drv hs'
    exact hA.new_kept hr hv

end Invariant

/-! ## 6. Two runs -/

section Runs

/-- The old model answers in small letters; a conversion of the second document is not usable. -/
def plainConverter : Converter Char Char where
  embedOld := fun t => [t.toLower]
  convert := fun v => 'c' :: v
  finite := fun c => c != 'b'
  oldDim := 1
  newDim := 2
  render := id
  parseVector := .ok
  parse_render := fun _ => rfl

def migratedEntry : ColumnEntry (Option Char) Char (List Char) where
  text := id
  embed := fun t => ['n', t]
  bytes := fun _ => 1
  width := List.length
  dim := 2
  itemCap := 10
  budget := 10
  maxRetries := 3
  mode := .statement

/-- Three documents with their old vectors. -/
def migrationStart : MigSys (Fin 20) (Option Char) Char Char where
  col :=
    { db := ⟨((Table.empty.put (nth 1) ⟨some 'A', ⟨some ['a'], none⟩, 0⟩).put (nth 2)
        ⟨some 'B', ⟨some ['b'], none⟩, 0⟩).put (nth 3) ⟨some 'C', ⟨some ['c'], none⟩, 0⟩,
        .empty, .empty, 1⟩
      inflight := [] }
  drv := ⟨⟨.running, none, 0, 0, 0⟩, false, none, fun _ => 0⟩

theorem migrationStart_start : migrationStart.Start migratedEntry plainConverter := by
  refine ⟨fun _ => rfl, rfl, rfl, ?_⟩
  intro k r hr
  simp only [migrationStart, Table.get_put, Table.get_empty] at hr
  split at hr
  · cases hr
    exact ⟨rfl, .inl rfl⟩
  · split at hr
    · cases hr
      exact ⟨rfl, .inl rfl⟩
    · split at hr
      · cases hr
        exact ⟨rfl, .inl rfl⟩
      · cases hr

/-- Row 1 is updated, and while its job is pending an open transaction updates it again, which adds
    no second job. The worker claims the job, reads the first update's text, and applies after the
    commit; the driver converts the other rows, finds the new column filled, and finishes. -/
def coalescedMigration : List (MigAct (Fin 20) (Option Char)) :=
  [.column (.writer .begin), .column (.writer (.exec 1 (.update [⟨nth 1, nth 1, some 'D'⟩]))),
    .column (.writer (.commit 1)), .column (.writer .begin),
    .column (.writer (.exec 2 (.update [⟨nth 1, nth 1, some 'E'⟩]))), .column (.claimAndRead [0]),
    .column (.writer (.commit 2)), .column (.applyGroup [(0, .ok)]), .readBatch 4 fun _ => 0,
    .applyBatch, .readBatch 4 fun _ => 0]

/-- **A stale vector is migrated.** Without the condition a reachable state has the migration
    finished, no open transaction and no job, live or dead, and a row of text `E` with the new
    model's vector of `D`, which was never skipped. -/
theorem stale_migration_reachable :
    ∃ s, Reach (MigSys.step migratedEntry sampleTexts plainConverter) (fun _ _ => True)
        migrationStart s ∧ s.drv.finished = true ∧
      (s.col.db.rows.get 1).map (fun r => (r.doc, r.cols)) =
        some (some 'E', ⟨some ['a'], some ['n', 'D']⟩) ∧
      (∀ x, s.col.db.txns.get x = none) ∧ s.col.db.queue.jobs = [] ∧ s.col.db.queue.dead = [] ∧
      s.drv.skips 1 = 0 := by
  let p : MigSys (Fin 20) (Option Char) Char Char → Bool := fun s =>
    decide (s.drv.finished = true ∧ (s.col.db.rows.get 1).map (fun r => (r.doc, r.cols)) =
        some (some 'E', ⟨some ['a'], some ['n', 'D']⟩) ∧
      (s.col.db.txns.any fun _ _ => true) = false ∧ s.col.db.queue.jobs = [] ∧
      s.col.db.queue.dead = [] ∧ s.drv.skips 1 = 0)
  have h : (runWhile (MigSys.step migratedEntry sampleTexts plainConverter) (fun _ _ => True)
      migrationStart coalescedMigration).any p = true := by decide
  obtain ⟨s, hs, hp⟩ := Reach.exists_of_runWhile h
  obtain ⟨hf, hrow, htx, hq⟩ := of_decide_eq_true hp
  refine ⟨s, hs, hf, hrow, fun x => ?_, hq⟩
  by_contra hx
  obtain ⟨t, ht⟩ := ne_none_iff_exists'.mp hx
  cases Table.any_eq_false_iff.mp htx x t ht

/-- Two rows are read, the third is written meanwhile and embedded by its job, the batch is written
    and the driver finishes. -/
def migrationRun : List (MigAct (Fin 20) (Option Char)) :=
  [.readBatch 2 fun _ => 0, .column (.writer .begin),
    .column (.writer (.exec 1 (.update [⟨nth 3, nth 3, some 'D'⟩]))), .column (.writer (.commit 1)),
    .column (.claimAndRead [0]), .applyBatch, .column (.applyGroup [(0, .ok)]),
    .readBatch 2 fun _ => 0]

/-- A run that meets the condition. -/
theorem migrationRun_keeps_vectors :
    ∃ s, Reach (MigSys.step migratedEntry sampleTexts plainConverter)
        (fun s a => s.careful migratedEntry a = true) migrationStart s ∧ s.drv.finished = true ∧
      ∃ r, s.col.db.rows.get 2 = some r ∧ r.doc = some 'B' ∧
        (r.cols.new = some ['n', 'B'] ∨
          (∃ o, r.cols.old = some o ∧ r.cols.new = some ('c' :: o)) ∨
          (r.cols.new = none ∧ s.drv.skips 2 = 1) ∨ s.col.db.queue.Live 2 ∨
          s.col.db.queue.Dead 2) := by
  have h : (runWhile (MigSys.step migratedEntry sampleTexts plainConverter)
      (fun s a => s.careful migratedEntry a = true) migrationStart migrationRun).any (fun s =>
        decide (s.drv.finished = true ∧ (s.col.db.rows.get 2).map Row.doc = some (some 'B'))) =
      true := by decide
  obtain ⟨s, hs, hp⟩ := Reach.exists_of_runWhile h
  obtain ⟨hf, hdoc⟩ := of_decide_eq_true hp
  obtain ⟨r, hr, hd⟩ := map_eq_some_iff.mp hdoc
  refine ⟨s, hs, hf, r, hr, hd, ?_⟩
  exact (migration_keeps_vectors migratedEntry sampleTexts plainConverter ⟨by decide, trivial⟩ _ s
    migrationStart_start hs).1 hf 2 r 'B' hr hd

end Runs

end Postvec
