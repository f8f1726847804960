import Postvec.Chunking.Pieces

/-!
# The chunks of a document

The merger charges a span before it looks at it, so the spans it attempts do not depend on the caps
nor on which of them are blank: they are the pieces merged greedily (`attempts`), windows over the
document (`Windows`), and a run records exactly these up to the first refusal
(`splitRecursive_attempts`).

Results: `splitRecursive_covers` (no text is lost), `splitRecursive_valid` (the chunk invariant, and
no assertion fails).
-/

namespace Postvec.Chunking

open Machine List

/-! ## 1. One span -/

/-- The characters of a span. -/
def textAt (chars : Text) (w : Span) : Text := (chars.drop w.1).take (w.2 - w.1)

/-- The span holds more than whitespace; the others are dropped. -/
def kept (chars : Text) (w : Span) : Bool := !(textAt chars w).all isWhitespace

section Emit

variable {chars : Text} {m : Merger} {s e : Nat}

/-- `emit` inside the text: the budget first, then the cap on non-blank chunks. -/
theorem emit_eq (hs : s ≤ e) (he : e ≤ chars.length) : m.emit chars s e =
    if m.outputBudget < m.chargedChars + (e - s) then
      .error (.error (.outputBudgetExceeded (m.chargedChars + (e - s)) m.outputBudget))
    else if kept chars (s, e) ∧ maxChunksPerDocument ≤ m.out.length then
      .error (.error (.tooManyChunks maxChunksPerDocument))
    else .ok { m with
      chargedChars := m.chargedChars + (e - s)
      out := m.out ++ [(s, e)].filter (kept chars) } := by
  unfold Merger.emit
  rw [slice_eq hs he]
  simp only
  split
  · rfl
  · cases hk : (textAt chars (s, e)).all isWhitespace with
    | true =>
      have hk' : ((chars.drop s).take (e - s)).all isWhitespace = true := hk
      simp [kept, hk, hk']
    | false =>
      have hk' : ((chars.drop s).take (e - s)).all isWhitespace = false := hk
      simp [kept, hk, hk']

end Emit

/-! ## 2. The merge -/

/-- The spans made of the one being assembled and of the pieces that follow. -/
def merge (size overlap : Nat) : Span → List Span → List Span
  | w, [] => [w]
  | w, p :: ps =>
    if (w.2 - w.1) + (p.2 - p.1) ≤ size then merge size overlap (w.1, p.2) ps
    else
      w :: merge size overlap
        (max (max (w.2 - overlap) (w.1 + 1)) (w.2 + (p.2 - p.1) - size), p.2) ps

/-- The spans attempted over a text. -/
def attempts (text : Text) (size overlap : Nat) : List Span :=
  match pieces text size overlap separators 0 text.length with
  | [] => []
  | p :: ps => merge size overlap p ps

/-- The merger, asked to record spans in order. -/
def emitAll (chars : Text) (m : Merger) (ws : List Span) : Except Halt Merger :=
  ws.foldlM (fun m w => m.emit chars w.1 w.2) m

section Run

variable {chars : Text} {m m' : Merger} {size overlap : Nat}

/-- Recording a span does not look at the one being assembled. -/
theorem emit_with {s e : Nat} (c : Option Span) :
    Merger.emit { m with cur := c } chars s e =
      (m.emit chars s e).map fun m' => { m' with cur := c } := by
  unfold Merger.emit
  simp only
  split
  · rfl
  · cases slice chars s e with
    | error _ => rfl
    | ok text =>
      simp only
      split
      · rfl
      · split <;> rfl

/-- Closing the last span is recording it. -/
theorem finish_some {w : Span} (h : m.cur = some w) : m.finish chars =
    (Merger.emit { m with cur := none } chars w.1 w.2).bind fun m' => m'.finish chars := by
  obtain ⟨s, e⟩ := w
  unfold Merger.finish
  simp only [h, emit_with]
  cases m.emit chars s e with
  | error | ok => rfl

theorem push_emits {cs ce stop : Nat} (hcur : m.cur = some (cs, ce)) (hlt : ce < stop)
    (hlen : stop - ce ≤ m.size) (hover : ¬ (ce - cs) + (stop - ce) ≤ m.size) :
    m.push chars ce stop = (m.emit chars cs ce).map fun m' =>
      { m' with cur := some (m.nextStart cs ce (stop - ce), stop) } := by
  unfold Merger.push
  rw [if_neg (not_not.mpr hlt), if_neg (not_not.mpr hlen), hcur]
  simp only [ne_eq, not_true_eq_false, if_false, if_neg hover]
  cases m.emit chars cs ce <;> rfl

/-- Pieces fed to the merger and closed: the spans of the merge are recorded. -/
theorem feed_merge {a b : Nat} {ps : List Span} (ht : Tiles size a b ps) :
    ∀ {m : Merger} {s : Nat}, m.size = size → m.overlap = overlap → m.cur = some (s, a) →
      ((feed chars m ps).bind fun m' => m'.finish chars) =
        (emitAll chars { m with cur := none } (merge size overlap (s, a) ps)).bind
          fun m' => m'.finish chars := by
  induction ht with
  | nil a =>
    intro m s _ _ hcur
    rw [merge, emitAll, foldlM_cons]
    simp only [foldlM_nil, bind_pure]
    exact finish_some hcur
  | @cons a b c ps hlt hlen _ ih =>
    intro m s hs ho hcur
    rw [feed_cons, merge]
    by_cases hfit : (a - s) + (b - a) ≤ size
    · have hpush : m.push chars a b = .ok { m with cur := some (s, b) } := by
        unfold Merger.push
        simp [hlt, hlen, hcur, hfit, hs]
      rw [if_pos hfit, hpush]
      exact ih hs ho rfl
    · rw [if_neg hfit, push_emits hcur hlt (hs ▸ hlen) (hs ▸ hfit), emitAll, foldlM_cons,
        emit_with none]
      cases he : m.emit chars s a with
      | error _ => rfl
      | ok m' =>
        have ha := emit_alike he
        subst hs ho
        exact ih ha.size ha.overlap rfl

end Run

/-- **What a run does**: with a valid geometry, on a text within the byte limit that is not blank,
    the attempts are recorded one after the other. -/
theorem splitRecursive_attempts {text : Text} {chunkSize chunkOverlap : Int} (h0 : 0 ≤ chunkOverlap)
    (hlt : chunkOverlap < chunkSize) (hbytes : byteLen text ≤ maxDocumentBytes)
    (hvis : ∃ c ∈ text, isWhitespace c = false) :
    splitRecursive text chunkSize chunkOverlap =
      (emitAll text ⟨chunkSize.toNat, chunkOverlap.toNat,
          max (text.length * maxOutputAmplification) chunkSize.toNat, 0, none, []⟩
        (attempts text chunkSize.toNat chunkOverlap.toNat)).bind fun m => m.finish text := by
  obtain ⟨c, hc, hw⟩ := hvis
  have hany : text.any (fun c => !isWhitespace c) = true := any_eq_true.mpr ⟨c, hc, by simp [hw]⟩
  unfold splitRecursive
  rw [if_neg (by omega), if_neg (by omega), if_neg (by omega), if_neg (by simp [hany])]
  simp only
  rw [walk_eq separators (Nat.le_refl _), attempts]
  have ht : Tiles chunkSize.toNat 0 text.length
      (pieces text chunkSize.toNat chunkOverlap.toNat separators 0 text.length) :=
    pieces_tiles (by omega) separators (Nat.zero_le _)
  simp only
  generalize pieces text chunkSize.toNat chunkOverlap.toNat separators 0 text.length = ps at ht
  obtain ⟨n, hn⟩ : ∃ n, n = text.length := ⟨_, rfl⟩
  rw [← hn] at ht
  cases ht with
  | nil =>
    have hnil : text = [] := length_eq_zero_iff.mp hn.symm
    simp [hnil] at hc
  | @cons _ b _ ps hlt hlen ht =>
    rw [feed_cons]
    unfold Merger.push
    simp only [hlt, hlen, not_true_eq_false, if_false]
    refine Eq.trans ?_ (feed_merge (m := ⟨chunkSize.toNat, chunkOverlap.toNat,
      max (text.length * maxOutputAmplification) chunkSize.toNat, 0, some (0, b), []⟩) ht
        rfl rfl rfl)
    simp only [Except.bind]
    cases feed text _ ps <;> rfl

/-! ## 3. The attempts are windows -/

section Windows

variable {size overlap : Nat}

/-- The spans of the merge are windows, and the newest ends where the pieces do. -/
theorem merge_windows {a b : Nat} {ps : List Span} (ht : Tiles size a b ps) :
    ∀ {s : Nat} {ws : List Span}, Windows size overlap ((s, a) :: ws) →
      ∃ w vs, (merge size overlap (s, a) ps).reverse ++ ws = w :: vs ∧ w.2 = b ∧
        Windows size overlap (w :: vs) := by
  induction ht with
  | nil a => exact fun {s ws} h => ⟨(s, a), ws, rfl, rfl, h⟩
  | @cons a b c ps hlt hlen _ ih =>
    intro s ws h
    have hsa : s < a := (h.bounds (s, a) mem_cons_self).1
    rw [merge]
    split
    · rename_i hfit
      exact ih (h.grow hlt (by simp only at hfit; omega))
    · rename_i hover
      rw [reverse_cons, append_assoc]
      refine ih (.next h ?_)
      constructor
      all_goals simp only at hover ⊢
      all_goals omega

theorem attempts_windows (text : Text) (size overlap : Nat) (hsize : 1 ≤ size)
    (hne : 0 < text.length) :
    ∃ w vs, (attempts text size overlap).reverse = w :: vs ∧ w.2 = text.length ∧
      Windows size overlap (w :: vs) := by
  have ht : Tiles size 0 text.length (pieces text size overlap separators 0 text.length) :=
    pieces_tiles hsize separators (Nat.zero_le _)
  unfold attempts
  generalize pieces text size overlap separators 0 text.length = ps at ht
  obtain ⟨n, hn⟩ : ∃ n, n = text.length := ⟨_, rfl⟩
  rw [← hn] at ht hne ⊢
  cases ht with
  | nil => exact absurd hne (Nat.lt_irrefl 0)
  | cons hlt hlen ht => simpa using merge_windows ht (.first hlt (by simpa using hlen))

theorem attempts_bounds (overlap : Nat) {text : Text} (hsize : 1 ≤ size) (hne : 0 < text.length) :
    ∀ w ∈ attempts text size overlap, w.1 ≤ w.2 ∧ w.2 ≤ text.length := by
  obtain ⟨w, vs, hrev, hend, hw⟩ := attempts_windows text size overlap hsize hne
  intro v hv
  rw [← mem_reverse, hrev] at hv
  exact ⟨Nat.le_of_lt (hw.bounds v hv).1, hend ▸ hw.end_le v hv⟩

end Windows

/-! ## 4. Recording the attempts -/

/-- A run that ends with a value or with an error, and not in a panic. -/
inductive Ends {α : Type} (R : SplitError → Prop) (P : α → Prop) : Except Halt α → Prop where
  | ok {a : α} : P a → Ends R P (.ok a)
  | error {e : SplitError} : R e → Ends R P (.error (.error e))

theorem Ends.bind {α β : Type} {R : SplitError → Prop} {P : α → Prop} {Q : β → Prop}
    {r : Except Halt α} {f : α → Except Halt β} (h : Ends R P r)
    (hf : ∀ a, P a → Ends R Q (f a)) : Ends R Q (r.bind f) := by
  cases h with
  | ok ha => exact hf _ ha
  | error he => exact .error he

theorem Ends.imp {α : Type} {R R' : SplitError → Prop} {P P' : α → Prop} {r : Except Halt α}
    (h : Ends R P r) (hR : ∀ e, R e → R' e) (hP : ∀ a, P a → P' a) : Ends R' P' r := by
  cases h with
  | ok ha => exact .ok (hP _ ha)
  | error he => exact .error (hR _ he)

/-- **The run**: spans inside the text are charged one after the other. It is refused at the cap on
    chunks, or at the first span that is over the budget. -/
theorem emitAll_ends {chars : Text} : ∀ (ws : List Span) (m : Merger),
    (∀ w ∈ ws, w.1 ≤ w.2 ∧ w.2 ≤ chars.length) → m.out.length ≤ maxChunksPerDocument →
    Ends
      (fun e => (maxChunksPerDocument < m.out.length + (ws.filter (kept chars)).length ∧
          e = .tooManyChunks maxChunksPerDocument) ∨
        ∃ w vs, (w :: vs).reverse <+: ws ∧
          m.outputBudget < m.chargedChars + total (w :: vs) ∧
          e = .outputBudgetExceeded (m.chargedChars + total (w :: vs)) m.outputBudget)
      (fun m' => m'.cur = m.cur ∧ m'.out = m.out ++ ws.filter (kept chars) ∧
        m'.out.length ≤ maxChunksPerDocument ∧
        (ws ≠ [] → m.chargedChars + total ws ≤ m.outputBudget))
      (emitAll chars m ws)
  | [], m, _, hfew => .ok ⟨rfl, by simp, hfew, by simp⟩
  | w :: ws, m, hin, hfew => by
    obtain ⟨⟨hs, he⟩, hin'⟩ := forall_mem_cons.mp hin
    rw [emitAll, foldlM_cons, emit_eq hs he]
    split
    · rename_i hover
      exact .error (.inr ⟨w, [], by simp, by simpa using hover, by simp⟩)
    · rename_i hbud
      split
      · rename_i hcap
        refine .error (.inl ⟨?_, rfl⟩)
        rw [filter_cons_of_pos hcap.1, length_cons]
        omega
      · rename_i hcap
        have hfew' : (m.out ++ [w].filter (kept chars)).length ≤ maxChunksPerDocument := by
          cases hk : kept chars w with
          | false => simpa [hk] using hfew
          | true =>
            have hlt : m.out.length < maxChunksPerDocument :=
              Nat.not_le.mp fun h => hcap ⟨hk, h⟩
            simp only [hk, filter_cons_of_pos, filter_nil, length_append,
              length_singleton]
            omega
        have hfilter : (w :: ws).filter (kept chars) =
            [w].filter (kept chars) ++ ws.filter (kept chars) :=
          filter_append [w] ws
        refine (emitAll_ends ws _ hin' hfew').imp (fun e h => ?_) fun m' h => ?_
        · rcases h with ⟨hmany, rfl⟩ | ⟨v, vs, hpre, hover, rfl⟩
          · refine .inl ⟨?_, rfl⟩
            rw [hfilter, length_append]
            simpa [Nat.add_assoc] using hmany
          · have htotal : m.chargedChars + (w.2 - w.1) + total (v :: vs) =
                m.chargedChars + total (v :: (vs ++ [w])) := by
              rw [← cons_append, total_append, total_cons w, total_nil]
              omega
            refine .inr ⟨v, vs ++ [w], ?_, htotal ▸ hover, htotal ▸ rfl⟩
            rw [← cons_append, reverse_append]
            exact (prefix_append_right_inj [w]).mpr hpre
        · obtain ⟨hcur, hout, hlen, htotal⟩ := h
          refine ⟨hcur, ?_, hlen, fun _ => ?_⟩
          · rw [hout, hfilter, append_assoc]
          · rw [total_cons]
            cases ws with
            | nil => simpa using hbud
            | cons v vs => simpa [Nat.add_assoc] using htotal (cons_ne_nil v vs)

/-- The errors of a run over a text of `n` characters: the cap on chunks, or windows within the
    text whose total length is over the budget. -/
def Reported (size overlap budget n : Nat) (e : SplitError) : Prop :=
  e = .tooManyChunks maxChunksPerDocument ∨
    ∃ w ws, Windows size overlap (w :: ws) ∧ w.2 ≤ n ∧ budget < total (w :: ws) ∧
      e = .outputBudgetExceeded (total (w :: ws)) budget

/-! ## 5. The chunks -/

/-- Numbered from 0, each with its text. -/
def numbered (chars : Text) (spans : List Span) : List Chunk :=
  spans.zipIdx.map fun (span, i) => ⟨i, span.1, span.2, textAt chars span⟩

theorem mapM_ok {α β : Type} {f : α → Except Halt β} {g : α → β} :
    ∀ {l : List α}, (∀ x ∈ l, f x = .ok (g x)) → l.mapM f = .ok (l.map g)
  | [], _ => rfl
  | x :: l, h => by
    rw [mapM_cons, h x mem_cons_self,
      mapM_ok fun y hy => h y (mem_cons_of_mem x hy)]
    rfl

/-- What a run over a text that is not blank returns: the windows that are not blank. -/
structure Chunked (chars : Text) (size overlap : Nat) (chunks : List Chunk) : Prop where
  windows : ∃ w ws, Windows size overlap (w :: ws) ∧ w.2 = chars.length ∧
    chunks = numbered chars ((w :: ws).reverse.filter (kept chars))
  few : chunks.length ≤ maxChunksPerDocument

variable {chars : Text}

theorem length_numbered {spans : List Span} :
    (numbered chars spans).length = spans.length := by
  simp [numbered]

/-- The recorded spans, numbered and cut out. -/
theorem finish_numbered {m : Merger} (hcur : m.cur = none)
    (hin : ∀ w ∈ m.out, w.1 ≤ w.2 ∧ w.2 ≤ chars.length) :
    m.finish chars = .ok (numbered chars m.out) := by
  unfold Merger.finish
  rw [hcur]
  refine mapM_ok fun x hx => ?_
  obtain ⟨hs, he⟩ := hin x.1 (fst_mem_of_mem_zipIdx hx)
  simp only
  rw [slice_eq hs he]
  rfl

/-- The errors of `splitRecursive`, besides those of the merger. -/
def Refused (text : Text) (chunkSize chunkOverlap : Int) (e : SplitError) : Prop :=
  ((chunkSize < 1 ∨ chunkOverlap < 0 ∨ chunkSize ≤ chunkOverlap) ∧ ∃ msg, e = .geometry msg) ∨
    maxDocumentBytes < byteLen text ∧ e = .documentTooLarge (byteLen text) maxDocumentBytes

/-- Everything a call can do. -/
theorem splitRecursive_ends (text : Text) (chunkSize chunkOverlap : Int) :
    Ends (fun e => Refused text chunkSize chunkOverlap e ∨
        byteLen text ≤ maxDocumentBytes ∧
          Reported chunkSize.toNat chunkOverlap.toNat
            (max (text.length * maxOutputAmplification) chunkSize.toNat) text.length e)
      (fun chunks => 0 ≤ chunkOverlap ∧ chunkOverlap < chunkSize ∧
        ((chunks = [] ∧ ∀ c ∈ text, isWhitespace c = true) ∨
          Chunked text chunkSize.toNat chunkOverlap.toNat chunks))
      (splitRecursive text chunkSize chunkOverlap) := by
  by_cases hsize : chunkSize < 1
  · rw [splitRecursive, if_pos hsize]
    exact .error (.inl (.inl ⟨.inl hsize, _, rfl⟩))
  by_cases hover : chunkOverlap < 0 ∨ chunkOverlap ≥ chunkSize
  · rw [splitRecursive, if_neg hsize, if_pos hover]
    exact .error (.inl (.inl ⟨.inr hover, _, rfl⟩))
  by_cases hbytes : maxDocumentBytes < byteLen text
  · rw [splitRecursive, if_neg hsize, if_neg hover, if_pos hbytes]
    exact .error (.inl (.inr ⟨hbytes, rfl⟩))
  obtain ⟨h0, hlt⟩ : 0 ≤ chunkOverlap ∧ chunkOverlap < chunkSize := by omega
  by_cases hvis : ∃ c ∈ text, isWhitespace c = false
  · have hne : 0 < text.length := by
      obtain ⟨c, hc, -⟩ := hvis
      exact length_pos_of_mem hc
    obtain ⟨w, vs, hrev, hend, hw⟩ :=
      attempts_windows text chunkSize.toNat chunkOverlap.toNat (by omega) hne
    have hin := attempts_bounds chunkOverlap.toNat (by omega : 1 ≤ chunkSize.toNat) hne
    rw [splitRecursive_attempts h0 hlt (Nat.not_lt.mp hbytes) hvis]
    refine ((emitAll_ends _ _ hin (Nat.zero_le _)).imp (fun e h => ?_) fun _ h => h).bind
      fun m h => ?_
    · refine .inr ⟨Nat.not_lt.mp hbytes, ?_⟩
      rcases h with ⟨-, rfl⟩ | ⟨v, us, hpre, hbud, rfl⟩
      · exact .inl rfl
      · -- the spans up to the refused one are windows themselves
        have hsuf := reverse_suffix.mpr hpre
        rw [reverse_reverse, hrev] at hsuf
        rw [Nat.zero_add] at hbud ⊢
        exact .inr ⟨v, us, hw.suffix hsuf, hend ▸ hw.end_le v (hsuf.subset mem_cons_self),
          hbud, rfl⟩
    · obtain ⟨hcur, hout, hfew, -⟩ := h
      rw [nil_append] at hout
      rw [finish_numbered hcur fun v hv => hin v (mem_of_mem_filter (hout ▸ hv))]
      refine .ok ⟨h0, hlt, .inr ⟨⟨w, vs, hw, hend, ?_⟩, ?_⟩⟩
      · rw [hout, ← hrev, reverse_reverse]
      · rw [length_numbered]
        exact hfew
  · have hblank : ∀ c ∈ text, isWhitespace c = true := by
      simpa using hvis
    rw [splitRecursive, if_neg hsize, if_neg hover, if_neg hbytes, if_pos (by simpa using hblank)]
    exact .ok ⟨h0, hlt, .inl ⟨rfl, hblank⟩⟩

/-! ## 6. No text is lost -/

/-- The chunk's span. -/
def Chunk.span (c : Chunk) : Span := (c.charStart, c.charEnd)

/-- The position lies inside the chunk. -/
def Chunk.holds (i : Nat) (c : Chunk) : Bool := decide (c.charStart ≤ i) && decide (i < c.charEnd)

section Numbered

variable {spans : List Span}

theorem map_span_numbered (chars : Text) (spans : List Span) :
    (numbered chars spans).map Chunk.span = spans := by
  rw [numbered, map_map]
  exact zipIdx_map_fst 0 spans

theorem map_seq_numbered : (numbered chars spans).map Chunk.seq = List.range spans.length := by
  rw [numbered, map_map, range_eq_range']
  exact zipIdx_map_snd 0 spans

theorem span_mem_of_mem_numbered {c : Chunk} (h : c ∈ numbered chars spans) : c.span ∈ spans := by
  have := mem_map_of_mem (f := Chunk.span) h
  rwa [map_span_numbered] at this

theorem exists_mem_numbered (chars : Text) {w : Span} (h : w ∈ spans) :
    ∃ c ∈ numbered chars spans, c.span = w := by
  rw [← map_span_numbered chars spans] at h
  exact mem_map.mp h

theorem text_of_mem_numbered {c : Chunk} (h : c ∈ numbered chars spans) :
    c.text = textAt chars c.span := by
  obtain ⟨⟨span, i⟩, _, rfl⟩ := mem_map.mp h
  rfl

end Numbered

variable {w : Span}

theorem mem_textAt {i : Nat} (h : i < chars.length) (hs : w.1 ≤ i)
    (he : i < w.2) : chars[i] ∈ textAt chars w := by
  have hlen : i - w.1 < (textAt chars w).length := by
    simp only [textAt, length_take, length_drop]
    omega
  have hget : (textAt chars w)[i - w.1] = chars[i] := by
    simp only [textAt, getElem_take, getElem_drop]
    congr 1
    omega
  exact hget ▸ getElem_mem hlen

/-- A window over a character that is not whitespace is kept. -/
theorem kept_of_visible {c : Char} (hc : c ∈ textAt chars w)
    (hv : isWhitespace c = false) : kept chars w = true := by
  simp only [kept, Bool.not_eq_true', all_eq_false]
  exact ⟨c, hc, by simp [hv]⟩

/-- Of things no two of which meet a condition, at most one meets it. -/
theorem length_filter_le_one {α : Type} {p : α → Bool} :
    ∀ {l : List α}, l.Pairwise (fun a b => p a = true → p b = false) → (l.filter p).length ≤ 1
  | [], _ => Nat.zero_le 1
  | a :: l, h => by
    obtain ⟨ha, hl⟩ := pairwise_cons.mp h
    cases hp : p a with
    | false =>
      rw [filter_cons_of_neg (by simp [hp])]
      exact length_filter_le_one hl
    | true =>
      have hnil : l.filter p = [] := by
        rw [filter_eq_nil_iff]
        intro b hb
        simp [ha b hb hp]
      rw [filter_cons_of_pos hp, hnil]
      exact Nat.le_refl 1

section Chunked

variable {size overlap : Nat} {chunks : List Chunk}

/-- In a chunked text, what any chunk has to do with an earlier one. -/
theorem Chunked.pairwise (h : Chunked chars size overlap chunks) :
    chunks.Pairwise (fun c d => Windows.After overlap d.span c.span) := by
  obtain ⟨w, ws, hw, _, rfl⟩ := h.windows
  have hp : ((w :: ws).reverse.filter (kept chars)).Pairwise
      (fun v v' => Windows.After overlap v' v) :=
    (pairwise_reverse.mpr hw.pairwise).filter _
  rw [← map_span_numbered chars ((w :: ws).reverse.filter (kept chars))] at hp
  exact pairwise_map.mp hp

theorem Chunked.covers (h : Chunked chars size overlap chunks) {i : Nat} (hi : i < chars.length)
    (hv : isWhitespace chars[i] = false) : ∃ c ∈ chunks, c.holds i = true := by
  obtain ⟨w, ws, hw, hend, rfl⟩ := h.windows
  obtain ⟨v, hvm, hs, he⟩ := hw.covers (by omega : i < w.2)
  have hk : kept chars v = true := kept_of_visible (mem_textAt hi hs he) hv
  have hvm' : v ∈ (w :: ws).reverse.filter (kept chars) :=
    mem_filter.mpr ⟨mem_reverse.mpr hvm, hk⟩
  obtain ⟨c, hc, rfl⟩ := exists_mem_numbered chars hvm'
  refine ⟨c, hc, ?_⟩
  simp only [Chunk.holds, Bool.and_eq_true, decide_eq_true_eq]
  exact ⟨hs, he⟩

theorem Chunked.disjoint (h : Chunked chars size 0 chunks) (i : Nat) :
    (chunks.filter (Chunk.holds i)).length ≤ 1 := by
  refine length_filter_le_one (h.pairwise.imp fun {c d} ha hc => ?_)
  have hle : c.charEnd ≤ d.charStart := ha.carried
  simp only [Chunk.holds, Bool.and_eq_true, decide_eq_true_eq] at hc
  simp only [Chunk.holds, Bool.and_eq_false_imp, decide_eq_true_eq, decide_eq_false_iff_not]
  omega

end Chunked

variable {chunkSize chunkOverlap : Int} {chunks : List Chunk}

/-- From a result to what it is made of. -/
theorem splitRecursive_chunked {text : Text}
    (h : splitRecursive text chunkSize chunkOverlap = .ok chunks) :
    0 ≤ chunkOverlap ∧ chunkOverlap < chunkSize ∧
      ((chunks = [] ∧ ∀ c ∈ text, isWhitespace c = true) ∨
        Chunked text chunkSize.toNat chunkOverlap.toNat chunks) := by
  have he := splitRecursive_ends text chunkSize chunkOverlap
  rw [h] at he
  cases he with
  | ok hp => exact hp

/-- **No text is lost**: a character that is not whitespace lies in a chunk, what lies in no chunk
    is whitespace, and without an overlap no position lies in two chunks. -/
theorem splitRecursive_covers (text : Text) (chunkSize chunkOverlap : Int) (chunks : List Chunk)
    (h : splitRecursive text chunkSize chunkOverlap = .ok chunks) :
    (∀ i (hi : i < text.length), isWhitespace text[i] = false →
      ∃ c ∈ chunks, c.holds i = true) ∧
    (∀ i (hi : i < text.length), (∀ c ∈ chunks, c.holds i = false) →
      isWhitespace text[i] = true) ∧
    (chunkOverlap = 0 → ∀ i, (chunks.filter (Chunk.holds i)).length ≤ 1) := by
  obtain ⟨h0, _, hc⟩ := splitRecursive_chunked h
  have hcov : ∀ i (hi : i < text.length), isWhitespace text[i] = false →
      ∃ c ∈ chunks, c.holds i = true := by
    intro i hi hv
    rcases hc with ⟨_, hblank⟩ | hc
    · rw [hblank _ (getElem_mem hi)] at hv
      cases hv
    · exact hc.covers hi hv
  refine ⟨hcov, fun i hi hnone => ?_, fun hz i => ?_⟩
  · cases hv : isWhitespace text[i] with
    | true => rfl
    | false =>
      obtain ⟨c, hcm, hh⟩ := hcov i hi hv
      rw [hnone c hcm] at hh
      cases hh
  · rcases hc with ⟨rfl, _⟩ | hc
    · exact Nat.zero_le 1
    · subst hz
      exact hc.disjoint i

/-- A text of four words in chunks of ten characters. -/
theorem fourWords_covers :
    ∃ c ∈ [Chunk.mk 0 0 8 "aaa bbb ".toList, ⟨1, 5, 15, "bb ccc ddd".toList⟩],
      c.holds 9 = true :=
  (splitRecursive_covers "aaa bbb ccc ddd".toList 10 3 _ (by decide +kernel)).1 9 (by decide)
    (by decide)

/-! ## 7. The chunk invariant -/

/-- What is asserted of every list of chunks. -/
structure ChunksValid (text : Text) (chunkSize chunkOverlap : Int) (chunks : List Chunk) :
    Prop where
  seq : chunks.map Chunk.seq = List.range chunks.length
  nonempty : ∀ c ∈ chunks, c.charStart < c.charEnd
  size : ∀ c ∈ chunks, (c.charEnd : Int) - c.charStart ≤ chunkSize
  visible : ∀ c ∈ chunks, ∃ ch ∈ c.text, isWhitespace ch = false
  slice : ∀ c ∈ chunks, slice text c.charStart c.charEnd = .ok c.text
  starts : chunks.Pairwise (fun c d => c.charStart < d.charStart)
  ends : chunks.Pairwise (fun c d => c.charEnd < d.charEnd)
  overlap : chunks.Pairwise (fun c d => (c.charEnd : Int) - d.charStart ≤ chunkOverlap)
  few : chunks.length ≤ maxChunksPerDocument

theorem Chunked.valid (h0 : 0 ≤ chunkOverlap) (hlt : chunkOverlap < chunkSize)
    (h : Chunked chars chunkSize.toNat chunkOverlap.toNat chunks) :
    ChunksValid chars chunkSize chunkOverlap chunks := by
  have hpair := h.pairwise
  obtain ⟨w, ws, hw, hend, rfl⟩ := h.windows
  have hmem : ∀ c ∈ numbered chars ((w :: ws).reverse.filter (kept chars)),
      c.span ∈ w :: ws ∧ kept chars c.span = true := by
    intro c hc
    have hs := mem_filter.mp (span_mem_of_mem_numbered hc)
    exact ⟨mem_reverse.mp hs.1, hs.2⟩
  have hbound : ∀ c ∈ numbered chars ((w :: ws).reverse.filter (kept chars)),
      c.charStart < c.charEnd ∧ c.charEnd ≤ c.charStart + chunkSize.toNat ∧
        c.charEnd ≤ chars.length := by
    intro c hc
    have hs := (hmem c hc).1
    obtain ⟨h1, h2⟩ := hw.bounds c.span hs
    exact ⟨h1, h2, hend ▸ hw.end_le c.span hs⟩
  constructor
  · rw [map_seq_numbered, length_numbered]
  · exact fun c hc => (hbound c hc).1
  · intro c hc
    have := (hbound c hc).2.1
    omega
  · intro c hc
    have hk := (hmem c hc).2
    rw [text_of_mem_numbered hc]
    simpa [kept] using hk
  · intro c hc
    obtain ⟨h1, _, h2⟩ := hbound c hc
    rw [slice_eq (Nat.le_of_lt h1) h2, text_of_mem_numbered hc]
    rfl
  · exact hpair.imp fun ha => ha.start_lt
  · exact hpair.imp fun ha => ha.end_lt
  · refine hpair.imp fun {c d} ha => ?_
    have : c.charEnd ≤ d.charStart + chunkOverlap.toNat := ha.carried
    omega
  · exact h.few

/-- **The chunk invariant holds of every result**, and no assertion or index check of the splitter
    fails on the way to a result or to an error. -/
theorem splitRecursive_valid (text : Text) (chunkSize chunkOverlap : Int) :
    splitRecursive text chunkSize chunkOverlap ≠ .error .panic ∧
      ∀ chunks, splitRecursive text chunkSize chunkOverlap = .ok chunks →
        ChunksValid text chunkSize chunkOverlap chunks := by
  refine ⟨fun hp => ?_, fun chunks h => ?_⟩
  · have he := splitRecursive_ends text chunkSize chunkOverlap
    rw [hp] at he
    cases he
  · obtain ⟨h0, hlt, ⟨rfl, _⟩ | hc⟩ := splitRecursive_chunked h
    · constructor <;> simp
    · exact hc.valid h0 hlt

theorem fourWords_valid :
    ChunksValid "aaa bbb ccc ddd".toList 10 3
      [⟨0, 0, 8, "aaa bbb ".toList⟩, ⟨1, 5, 15, "bb ccc ddd".toList⟩] :=
  (splitRecursive_valid "aaa bbb ccc ddd".toList 10 3).2 _ (by decide +kernel)

end Postvec.Chunking
