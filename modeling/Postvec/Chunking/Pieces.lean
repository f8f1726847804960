import Postvec.Chunking.Split
import Postvec.Lib.Windows

/-!
# The pieces of a document

`walk` decides where a document is cut and feeds the pieces to the merger as it goes. Where it cuts
does not depend on what the merger does with the pieces: `pieces` says it without a merger, and

* `walk_eq`: `walk` is the merger fed with `pieces`, one after the other (`feed`);
* `pieces_tiles`: the pieces lie end to end over the span, none empty, none over `size`. This is
  what the debug assertions of `Merger.push` ask for.
-/

namespace Postvec.Chunking

open Machine

/-! ## 1. Where the document is cut -/

/-- The pieces of the character boundary fallback. -/
def steps (step : Nat) (hstep : 0 < step) (p stop : Nat) : List Span :=
  if _h : p < stop then (p, min (p + step) stop) :: steps step hstep (min (p + step) stop) stop
  else []
termination_by stop - p

/-- The ends of the occurrences of a separator from `i` on. -/
def cuts (chars : Text) (sep : Separator) (stop i : Nat) : List Nat :=
  if _h : i + sep.1.length ≤ stop then
    if (chars.drop i).take sep.1.length = sep.1 then
      (i + sep.1.length) :: cuts chars sep stop (i + sep.1.length)
    else cuts chars sep stop (i + 1)
  else []
termination_by stop - i
decreasing_by
  · have := sep.2
    omega
  · have := sep.2
    omega

/-- The segments between the cuts. -/
def segments (start stop : Nat) : List Nat → List Span
  | [] => if start < stop then [(start, stop)] else []
  | e :: es => (start, e) :: segments e stop es

theorem stride_pos (size overlap : Nat) : 0 < max (size - overlap) 1 :=
  Nat.lt_of_lt_of_le Nat.one_pos (Nat.le_max_right _ _)

/-- The pieces of a span, from a level of the hierarchy on. -/
def pieces (chars : Text) (size overlap : Nat) : List Separator → Nat → Nat → List Span
  | seps, start, stop =>
    if stop - start ≤ size then if start < stop then [(start, stop)] else []
    else
      match seps with
      | [] => steps (max (size - overlap) 1) (stride_pos size overlap) start stop
      | sep :: rest =>
        (segments start stop (cuts chars sep stop start)).flatMap fun s =>
          if s.2 - s.1 ≤ size then [s] else pieces chars size overlap rest s.1 s.2

/-- The pieces of one segment. -/
def segmentPieces (chars : Text) (size overlap : Nat) (rest : List Separator) (s : Span) :
    List Span :=
  if s.2 - s.1 ≤ size then [s] else pieces chars size overlap rest s.1 s.2

section Pieces

variable {chars : Text} {size overlap : Nat} {sep : Separator} {rest seps : List Separator}
  {start stop i : Nat}

theorem pieces_short (h : stop - start ≤ size) (hlt : start < stop) :
    pieces chars size overlap seps start stop = [(start, stop)] := by
  cases seps <;> simp [pieces, h, hlt]

theorem pieces_empty (h : stop ≤ start) : pieces chars size overlap seps start stop = [] := by
  have h0 : stop - start ≤ size := by omega
  cases seps <;> simp [pieces, h0, Nat.not_lt.mpr h]

theorem pieces_nil (h : ¬ stop - start ≤ size) :
    pieces chars size overlap [] start stop =
      steps (max (size - overlap) 1) (stride_pos size overlap) start stop := by
  simp [pieces, h]

theorem pieces_cons (h : ¬ stop - start ≤ size) :
    pieces chars size overlap (sep :: rest) start stop =
      (segments start stop (cuts chars sep stop start)).flatMap
        (segmentPieces chars size overlap rest) := by
  rw [pieces, if_neg h]
  rfl

theorem cuts_match (h : i + sep.1.length ≤ stop)
    (hm : (chars.drop i).take sep.1.length = sep.1) :
    cuts chars sep stop i = (i + sep.1.length) :: cuts chars sep stop (i + sep.1.length) := by
  rw [cuts, dif_pos h, if_pos hm]

theorem cuts_skip (h : i + sep.1.length ≤ stop)
    (hm : ¬ (chars.drop i).take sep.1.length = sep.1) :
    cuts chars sep stop i = cuts chars sep stop (i + 1) := by
  rw [cuts, dif_pos h, if_neg hm]

theorem cuts_done (h : ¬ i + sep.1.length ≤ stop) : cuts chars sep stop i = [] := by
  rw [cuts, dif_neg h]

/-! ## 2. The pieces lie end to end -/

theorem steps_tiles {step : Nat} (hstep : 0 < step) (hs : step ≤ size) :
    ∀ {p stop : Nat}, p ≤ stop → Tiles size p stop (steps step hstep p stop) := by
  intro p stop hp
  induction p using steps.induct step hstep stop with
  | case1 p h ih =>
    rw [steps, dif_pos h]
    have h1 : p < min (p + step) stop := by omega
    have h2 : min (p + step) stop - p ≤ size := by omega
    exact .cons h1 h2 (ih (by omega))
  | case2 p h =>
    rw [steps, dif_neg h, Nat.le_antisymm hp (Nat.le_of_not_lt h)]
    exact .nil stop

/-- Segments cut at the occurrences from `i` on, each tiled, tile the span. -/
theorem segments_tiles {f : Span → List Span}
    (hf : ∀ s e, s < e → Tiles size s e (f (s, e))) :
    ∀ {start i : Nat}, start ≤ i → i ≤ stop →
      Tiles size start stop ((segments start stop (cuts chars sep stop i)).flatMap f) := by
  intro start i hstart hi
  have hsep := sep.2
  induction i using cuts.induct chars sep stop generalizing start with
  | case1 i h hm ih =>
    rw [cuts_match h hm, segments, List.flatMap_cons]
    exact (hf _ _ (by omega)).append (ih (Nat.le_refl _) h)
  | case2 i h hm ih =>
    rw [cuts_skip h hm]
    exact ih (by omega) (by omega)
  | case3 i h =>
    rw [cuts_done h, segments]
    split
    · rename_i hlt
      simpa using hf _ _ hlt
    · rename_i hlt
      have e : start = stop := by omega
      rw [e]
      exact .nil stop

theorem pieces_tiles (hsize : 1 ≤ size) : ∀ (seps : List Separator) {start stop : Nat},
    start ≤ stop → Tiles size start stop (pieces chars size overlap seps start stop)
  | seps, start, stop, hle => by
    by_cases h : stop - start ≤ size
    · by_cases hlt : start < stop
      · rw [pieces_short h hlt]
        exact .single hlt h
      · rw [pieces_empty (Nat.le_of_not_lt hlt), Nat.le_antisymm hle (Nat.le_of_not_lt hlt)]
        exact .nil stop
    · match seps with
      | [] =>
        rw [pieces_nil h]
        exact steps_tiles _ (by omega) hle
      | sep :: rest =>
        rw [pieces_cons h]
        refine segments_tiles (fun s e hse => ?_) (Nat.le_refl _) hle
        unfold segmentPieces
        split
        · rename_i hs
          exact .single hse hs
        · exact pieces_tiles hsize rest (Nat.le_of_lt hse)

end Pieces

/-! ## 3. `walk` feeds them to the merger -/

/-- The merger, fed with pieces in order. -/
def feed (chars : Text) (m : Merger) (ps : List Span) : Except Halt Merger :=
  ps.foldlM (fun m p => m.push chars p.1 p.2) m

section Feed

variable {chars : Text} {m m' : Merger}

@[simp] theorem feed_nil : feed chars m [] = .ok m := rfl

theorem feed_cons {p : Span} {ps : List Span} :
    feed chars m (p :: ps) = (m.push chars p.1 p.2).bind fun m' => feed chars m' ps := rfl

@[simp] theorem feed_single {p : Span} : feed chars m [p] = m.push chars p.1 p.2 := by
  rw [feed_cons]
  cases m.push chars p.1 p.2 <;> rfl

theorem feed_append {ps qs : List Span} :
    feed chars m (ps ++ qs) = (feed chars m ps).bind fun m' => feed chars m' qs :=
  List.foldlM_append

/-- Same geometry and budget. -/
structure Merger.Alike (m m' : Merger) : Prop where
  size : m'.size = m.size
  overlap : m'.overlap = m.overlap
  budget : m'.outputBudget = m.outputBudget

theorem Merger.Alike.trans {m'' : Merger} (h : m.Alike m') (h' : m'.Alike m'') : m.Alike m'' :=
  ⟨h'.size.trans h.size, h'.overlap.trans h.overlap, h'.budget.trans h.budget⟩

theorem emit_alike {s e : Nat} (h : m.emit chars s e = .ok m') : m.Alike m' := by
  unfold Merger.emit at h
  simp only at h
  split at h
  · cases h
  · split at h
    · cases h
    · split at h
      · cases h
        exact ⟨rfl, rfl, rfl⟩
      · split at h
        · cases h
        · cases h
          exact ⟨rfl, rfl, rfl⟩

theorem push_alike {s e : Nat} (h : m.push chars s e = .ok m') : m.Alike m' := by
  unfold Merger.push at h
  split at h
  · cases h
  · split at h
    · cases h
    · split at h
      · cases h
        exact ⟨rfl, rfl, rfl⟩
      · split at h
        · cases h
        · split at h
          · cases h
            exact ⟨rfl, rfl, rfl⟩
          · split at h
            · cases h
            · rename_i m₁ he
              cases h
              obtain ⟨h1, h2, h3⟩ := emit_alike he
              exact ⟨h1, h2, h3⟩

theorem feed_alike : ∀ {ps : List Span} {m m' : Merger}, feed chars m ps = .ok m' → m.Alike m'
  | [], m, m', h => by
    cases h
    exact ⟨rfl, rfl, rfl⟩
  | p :: ps, m, m', h => by
    rw [feed_cons] at h
    cases hp : m.push chars p.1 p.2 with
    | error e => rw [hp] at h; cases h
    | ok m₁ =>
      rw [hp] at h
      exact (push_alike hp).trans (feed_alike h)

end Feed

section Walk

variable {chars : Text} {size overlap : Nat} {sep : Separator} {stop : Nat}

theorem slice_eq {start : Nat} (h : start ≤ stop) (h' : stop ≤ chars.length) :
    slice chars start stop = .ok ((chars.drop start).take (stop - start)) := by
  rw [slice, if_pos ⟨h, h'⟩]

theorem fallback_eq {step : Nat} {hstep : 0 < step} : ∀ {p stop : Nat} {m : Merger},
    fallback chars step hstep p stop m = feed chars m (steps step hstep p stop) := by
  intro p stop m
  induction p using steps.induct step hstep stop generalizing m with
  | case1 p h ih =>
    rw [fallback, dif_pos h, steps, dif_pos h, feed_cons]
    simp only
    cases m.push chars p (min (p + step) stop) with
    | error e => rfl
    | ok m' => exact ih
  | case2 p h =>
    rw [fallback, dif_neg h, steps, dif_neg h]
    rfl

/-- What `walk` does after the loop over a separator. -/
def afterScan (stop : Nat) (segment : Nat → Nat → Merger → Except Halt Merger)
    (unsplit : Merger → Except Halt Merger) :
    Except Halt (Nat × Bool × Merger) → Except Halt Merger
  | .error e => .error e
  | .ok (segStart, found, m) =>
    if ¬ found then unsplit m
    else if segStart < stop then segment segStart stop m
    else .ok m

/-- The loop feeds the segments that are left. Before the first occurrence (`found` is false)
    nothing has been fed, and the first segment starts where the span does. -/
theorem scanLoop_eq {segment : Nat → Nat → Merger → Except Halt Merger}
    {unsplit : Merger → Except Halt Merger} {f : Span → List Span}
    (hseg : ∀ s e m, m.size = size → m.overlap = overlap → e ≤ stop →
      segment s e m = feed chars m (f (s, e))) (hstop : stop ≤ chars.length) :
    ∀ {i segStart : Nat} {found : Bool} {m : Merger}, m.size = size → m.overlap = overlap →
      (found = false → segStart < stop ∧ unsplit m = feed chars m (f (segStart, stop))) →
      afterScan stop segment unsplit (scanLoop chars sep segment stop i segStart found m) =
        feed chars m ((segments segStart stop (cuts chars sep stop i)).flatMap f) := by
  intro i segStart found m hs ho hfresh
  induction i using cuts.induct chars sep stop generalizing segStart found m with
  | case1 i h hm ih =>
    have hsl : slice chars i (i + sep.1.length) = .ok sep.1 := by
      rw [slice_eq (by omega) (by omega), Nat.add_sub_cancel_left, hm]
    rw [scanLoop, dif_pos h, hsl, cuts_match h hm, segments, List.flatMap_cons, feed_append,
      ← hseg segStart _ m hs ho h]
    simp only [if_true]
    cases hr : segment segStart (i + sep.1.length) m with
    | error e => rfl
    | ok m' =>
      rw [hseg _ _ m hs ho h] at hr
      have ha := feed_alike hr
      exact ih (ha.size.trans hs) (ha.overlap.trans ho) (by simp)
  | case2 i h hm ih =>
    have hsl : slice chars i (i + sep.1.length) = .ok ((chars.drop i).take sep.1.length) := by
      rw [slice_eq (by omega) (by omega), Nat.add_sub_cancel_left]
    rw [scanLoop, dif_pos h, hsl, cuts_skip h hm]
    simp only [if_neg hm]
    exact ih hs ho hfresh
  | case3 i h =>
    rw [scanLoop, dif_neg h, cuts_done h, segments]
    cases found with
    | false => simp [afterScan, hfresh rfl]
    | true =>
      by_cases hlt : segStart < stop
      · simp [afterScan, hlt, hseg segStart stop m hs ho (Nat.le_refl _)]
      · simp [afterScan, hlt]

/-- **`walk` feeds the merger the pieces of the span.** -/
theorem walk_eq : ∀ (seps : List Separator) {start stop : Nat} {m : Merger},
    stop ≤ chars.length →
    walk chars seps start stop m =
      feed chars m (pieces chars m.size m.overlap seps start stop)
  | seps, start, stop, m, hstop => by
    by_cases h : stop - start ≤ m.size
    · by_cases hlt : start < stop
      · cases seps <;> simp [walk, h, hlt, pieces_short h hlt]
      · cases seps <;> simp [walk, h, hlt, pieces_empty (Nat.le_of_not_lt hlt)]
    · match seps with
      | [] =>
        rw [walk, if_neg h, pieces_nil h]
        exact fallback_eq
      | sep :: rest =>
        have hlt : start < stop := by omega
        have hseg : ∀ s e (m₁ : Merger), m₁.size = m.size → m₁.overlap = m.overlap → e ≤ stop →
            (if e - s ≤ m₁.size then m₁.push chars s e else walk chars rest s e m₁) =
              feed chars m₁ (segmentPieces chars m.size m.overlap rest (s, e)) := by
          intro s e m₁ hs ho he
          unfold segmentPieces
          rw [hs]
          split
          · rw [feed_single]
          · rw [walk_eq rest (Nat.le_trans he hstop), hs, ho]
        have hun : walk chars rest start stop m =
            feed chars m (segmentPieces chars m.size m.overlap rest (start, stop)) := by
          rw [segmentPieces, if_neg h, walk_eq rest hstop]
        rw [walk, if_neg h, pieces_cons h,
          ← scanLoop_eq hseg hstop rfl rfl fun _ => ⟨hlt, hun⟩]
        rfl

end Walk

end Postvec.Chunking
