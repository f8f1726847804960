import Mathlib.Data.List.Chain
import Postvec.Chunking.Budget

/-!
# The spans the splitter attempts

* `attempts_total_le`: how many characters they have together;
* `attempts_slide`: over a text without spaces and newlines they are a sliding window;
* `attempts_end`: a piece ends after a space or a newline, or where a stretch without them was too
  long.
-/

namespace Postvec.Chunking

open Machine List

/-! ## 1. How much is attempted -/

section Total

variable {size overlap : Nat}

theorem windows_chain {ws : List Span} (h : Windows size overlap ws) :
    ws.IsChain fun w' w => Follows size overlap w w' := by
  induction h with
  | first => exact .singleton _
  | next _ hf ih => exact .cons_cons hf ih

/-- **How much is attempted.** Two spans further on the end is at least `size - overlap + 1`
    characters further on; so the spans of a text of `N` characters have at most
    `N + 2 * N * overlap / (size - overlap + 1) + overlap` characters together. -/
theorem attempts_total_le (text : Text) (size overlap : Nat) (ho : overlap < size) :
    (∀ u v w, [u, v, w] <:+: attempts text size overlap → u.2 + (size - overlap + 1) ≤ w.2) ∧
      total (attempts text size overlap) ≤
        text.length + 2 * text.length * overlap / (size - overlap + 1) + overlap := by
  rcases Nat.eq_zero_or_pos text.length with h0 | hne
  · have hnil : attempts text size overlap = [] := by
      unfold attempts
      rw [h0, pieces_empty (Nat.le_refl 0)]
    rw [hnil]
    simp
  · obtain ⟨w, vs, hrev, hend, hw⟩ := attempts_windows text size overlap (by omega) hne
    refine ⟨fun u v x hin => ?_, ?_⟩
    · have hin' : [x, v, u] <:+: w :: vs := by
        rw [← hrev]
        simpa using reverse_infix.mpr hin
      have hchain := List.IsChain.infix (windows_chain hw) hin'
      obtain ⟨hxv, hvu, -⟩ : Follows size overlap v x ∧ Follows size overlap u v ∧ True := by
        simpa using hchain
      have h1 := hxv.crowded
      have h2 := hvu.carried
      omega
    · rw [← total_reverse, hrev]
      have htotal := hw.total_le
      cases vs with
      | nil =>
        rw [length_nil, Nat.zero_mul, hend] at htotal
        exact htotal.trans (by rw [Nat.add_assoc]; exact Nat.le_add_right _ _)
      | cons v vs =>
        obtain ⟨t, r, hr, hlen, hroom⟩ := hw.room (Nat.le_of_lt ho)
        have hcount : (v :: vs).length * overlap ≤ 2 * t * overlap := by
          refine Nat.mul_le_mul_right _ ?_
          rw [length_cons]
          omega
        have hdiv : 2 * t * overlap ≤ 2 * text.length * overlap / (size - overlap + 1) := by
          rw [Nat.le_div_iff_mul_le (by omega)]
          have hstride : t * (size - overlap + 1) ≤ text.length := by
            rw [show size - overlap + 1 = size + 1 - overlap by omega]
            omega
          calc 2 * t * overlap * (size - overlap + 1)
              = 2 * (t * (size - overlap + 1)) * overlap := by ring
            _ ≤ 2 * text.length * overlap :=
              Nat.mul_le_mul_right _ (Nat.mul_le_mul_left 2 hstride)
        omega

/-- Four words in spans of ten characters with an overlap of three. -/
theorem fourWords_total : total (attempts "aaa bbb ccc ddd".toList 10 3) ≤
    15 + 2 * 15 * 3 / 8 + 3 :=
  (attempts_total_le "aaa bbb ccc ddd".toList 10 3 (by decide)).2

end Total

/-! ## 2. Text without spaces and newlines -/

/-- Once a piece of `size - overlap` characters does not fit any more, every span reaches back
    `overlap` characters and the ones that do not end the text have `size` characters. -/
theorem merge_slides {size overlap step : Nat} (stop : Nat) (hstep : 0 < step)
    (hs : step + overlap = size) (s e : Nat) (hback : s + overlap < e) (hlt : e < stop)
    (hover : size < min (e + step) stop - s) :
    ∃ middle last, merge size overlap (s, e) (steps step hstep e stop) =
        (s, e) :: (middle ++ [last]) ∧ (∀ w ∈ middle, w.2 - w.1 = size) ∧ last.2 = stop ∧
      ((s, e) :: (middle ++ [last])).IsChain fun w w' => w'.1 + overlap = w.2 := by
  have hstart : max (max (e - overlap) (s + 1)) (e + (min (e + step) stop - e) - size) =
      e - overlap := by omega
  rw [steps, dif_pos hlt, merge, if_neg (by simp only; omega)]
  simp only [hstart]
  by_cases hend : stop ≤ e + step
  · -- the piece ends the text
    have hq : min (e + step) stop = stop := Nat.min_eq_right hend
    rw [hq, steps, dif_neg (Nat.lt_irrefl _), merge]
    exact ⟨[], (e - overlap, stop), rfl, by simp, rfl, by simp; omega⟩
  · have hq : min (e + step) stop = e + step := Nat.min_eq_left (by omega)
    rw [hq]
    obtain ⟨middle, last, hmerge, hsize, hlast, hchain⟩ :=
      merge_slides stop hstep hs (e - overlap) (e + step) (by omega) (by omega) (by omega)
    refine ⟨(e - overlap, e + step) :: middle, last, by rw [hmerge]; rfl, ?_, hlast, ?_⟩
    · refine forall_mem_cons.mpr ⟨?_, hsize⟩
      simp only
      omega
    · exact .cons_cons (by simp only; omega) hchain
termination_by stop - e

/-- Before that, the first span grows. -/
theorem merge_grows {size overlap step stop : Nat} (hstep : 0 < step) (hs : step + overlap = size)
    {e : Nat} (h0 : 0 < e) (he : e ≤ size) (hstop : size < stop) :
    ∃ first middle last, merge size overlap (0, e) (steps step hstep e stop) =
        first :: (middle ++ [last]) ∧ (∀ w ∈ middle, w.2 - w.1 = size) ∧ last.2 = stop ∧
      (first :: (middle ++ [last])).IsChain fun w w' => w'.1 + overlap = w.2 := by
  by_cases hfit : min (e + step) stop ≤ size
  · rw [steps, dif_pos (by omega), merge, if_pos (by simp only; omega)]
    exact merge_grows hstep hs (by omega) hfit hstop
  · obtain ⟨middle, last, h⟩ := merge_slides stop hstep hs 0 e (by omega) (by omega)
      (by omega)
    exact ⟨(0, e), middle, last, h⟩
termination_by stop - e

/-- A text without spaces and newlines is cut by the fallback. -/
theorem pieces_unbroken {text : Text} {size overlap : Nat} (hsp : ' ' ∉ text) (hnl : '\n' ∉ text)
    (hlong : size < text.length) : pieces text size overlap separators 0 text.length =
      steps (max (size - overlap) 1) (stride_pos size overlap) 0 text.length := by
  have hover : ¬ text.length - 0 ≤ size := by omega
  have hnil : ∀ seps : List Separator, (∀ sep ∈ seps, ' ' ∈ sep.1 ∨ '\n' ∈ sep.1) →
      pieces text size overlap seps 0 text.length = pieces text size overlap [] 0 text.length := by
    intro seps
    induction seps with
    | nil => exact fun _ => rfl
    | cons sep seps ih =>
      intro hall
      obtain ⟨hsep, hall⟩ := forall_mem_cons.mp hall
      rw [← ih hall]
      rcases hsep with h | h
      · exact pieces_absent h hsp hover
      · exact pieces_absent h hnl hover
  rw [hnil separators (by decide), pieces_nil hover]

/-- **The fallback slides.** Over a text longer than `size` without spaces and newlines, consecutive
    spans overlap in exactly `overlap` characters, all but the first and the last have `size`
    characters, and the last ends the text. -/
theorem attempts_slide (text : Text) (size overlap : Nat) (ho : overlap < size) (hsp : ' ' ∉ text)
    (hnl : '\n' ∉ text) (hlong : size < text.length) :
    ∃ first middle last, attempts text size overlap = first :: (middle ++ [last]) ∧
      (∀ w ∈ middle, w.2 - w.1 = size) ∧ last.2 = text.length ∧
      (first :: (middle ++ [last])).IsChain fun w w' => w'.1 + overlap = w.2 := by
  have hstep : max (size - overlap) 1 = size - overlap := by omega
  unfold attempts
  rw [pieces_unbroken hsp hnl hlong, steps, dif_pos (by omega)]
  simp only [hstep, Nat.zero_add]
  rw [Nat.min_eq_left (by omega)]
  exact merge_grows _ (by omega) (by omega) (by omega) hlong

/-- Ten letters in spans of four with an overlap of one. -/
theorem tenLetters_slide :
    ∃ first middle last, attempts (List.replicate 10 'y') 4 1 = first :: (middle ++ [last]) ∧
      (∀ w ∈ middle, w.2 - w.1 = 4) ∧ last.2 = 10 ∧
      (first :: (middle ++ [last])).IsChain fun w w' => w'.1 + 1 = w.2 :=
  attempts_slide (List.replicate 10 'y') 4 1 (by decide) (by decide) (by decide) (by decide)

/-! ## 3. Where a span ends -/

def isBreak (c : Char) : Bool := c == ' ' || c == '\n'

/-- No space or newline from `a` to `b`. -/
def Unbroken (chars : Text) (a b : Nat) : Prop :=
  ∀ i c, a ≤ i → i < b → chars[i]? = some c → isBreak c = false

/-- A longest stretch of characters without spaces and newlines. -/
structure Stretch (chars : Text) (a b : Nat) : Prop where
  le : b ≤ chars.length
  free : Unbroken chars a b
  left : a = 0 ∨ ∃ q c, a = q + 1 ∧ chars[q]? = some c ∧ isBreak c = true
  right : b = chars.length ∨ ∃ c, chars[b]? = some c ∧ isBreak c = true

/-- Right after a space or a newline. -/
def AfterBreak (chars : Text) (p : Nat) : Prop :=
  ∃ q c, p = q + 1 ∧ chars[q]? = some c ∧ isBreak c = true

/-- The end of the text, after a break, or in a stretch of at least `size` characters or at its
    end. -/
def EndsWell (chars : Text) (size p : Nat) : Prop :=
  p = chars.length ∨ AfterBreak chars p ∨
    ∃ a b, Stretch chars a b ∧ size ≤ b - a ∧ a < p ∧ p ≤ b

section Ends

variable {chars : Text} {size overlap start stop : Nat}

/-- What is free of breaks lies in a stretch. -/
theorem exists_stretch {u v : Nat} (hv : v ≤ chars.length) (hfree : Unbroken chars u v) :
    ∃ a b, a ≤ u ∧ v ≤ b ∧ Stretch chars a b := by
  classical
  -- as far to the right, and then as far to the left, as there is no break
  obtain ⟨b, hvb, hb, hfb, hmax⟩ : ∃ b, v ≤ b ∧ b ≤ chars.length ∧ Unbroken chars u b ∧
      ∀ k, b < k → k ≤ chars.length → ¬ Unbroken chars u k :=
    ⟨Nat.findGreatest (Unbroken chars u) chars.length, Nat.le_findGreatest hv hfree,
      Nat.findGreatest_le _, Nat.findGreatest_spec hv hfree, fun k => Nat.findGreatest_is_greatest⟩
  have hex : ∃ a, Unbroken chars a b := ⟨u, hfb⟩
  refine ⟨Nat.find hex, b, Nat.find_min' hex hfb, hvb, hb, Nat.find_spec hex, ?_, ?_⟩
  · rcases Nat.eq_zero_or_pos (Nat.find hex) with h0 | hpos
    · exact .inl h0
    · obtain ⟨q, hq⟩ : ∃ q, Nat.find hex = q + 1 := ⟨Nat.find hex - 1, by omega⟩
      have hno : ¬ Unbroken chars q b := Nat.find_min hex (by omega)
      simp only [Unbroken, not_forall] at hno
      obtain ⟨i, c, hi, hib, hc, hbr⟩ := hno
      have hiq : i = q := by
        by_contra hne
        exact hbr (Nat.find_spec hex i c (by omega) hib hc)
      exact .inr ⟨q, c, hq, hiq ▸ hc, by simpa using hbr⟩
  · rcases Nat.eq_or_lt_of_le hb with h | h
    · exact .inl h
    · have hno := hmax (b + 1) (Nat.lt_succ_self b) h
      simp only [Unbroken, not_forall] at hno
      obtain ⟨i, c, hi, hib, hc, hbr⟩ := hno
      have hiq : i = b := by
        by_contra hne
        exact hbr (hfb i c hi (by omega) hc)
      exact .inr ⟨c, hiq ▸ hc, by simpa using hbr⟩

variable {sep : Separator}

/-- The last character of a separator that was found. -/
theorem getElem?_match {i : Nat} {b : Char} (hm : (chars.drop i).take sep.1.length = sep.1)
    (hb : sep.1.getLast? = some b) : ∃ q, i + sep.1.length = q + 1 ∧ chars[q]? = some b := by
  have hlen := sep.2
  refine ⟨i + (sep.1.length - 1), by omega, ?_⟩
  rw [List.getLast?_eq_getElem?, ← hm, List.getElem?_take, hm, if_pos (by omega),
    List.getElem?_drop] at hb
  exact hb

/-- A segment ends with the span or after a separator; a separator of one character is in it at most
    as its last character. -/
theorem segments_end {b : Char} (hb : sep.1.getLast? = some b) :
    ∀ {start i : Nat}, start ≤ i → i ≤ stop →
      (∀ j c, start ≤ j → j < i → sep.1 = [c] → chars[j]? ≠ some c) →
      ∀ s ∈ segments start stop (cuts chars sep stop i),
        start ≤ s.1 ∧ s.2 ≤ stop ∧ (s.2 = stop ∨ ∃ q, s.2 = q + 1 ∧ chars[q]? = some b) ∧
          ∀ j c, s.1 ≤ j → j + 1 < s.2 → sep.1 = [c] → chars[j]? ≠ some c := by
  intro start i hstart hi hno
  have hsep := sep.2
  induction i using cuts.induct chars sep stop generalizing start with
  | case1 i h hm ih =>
    rw [cuts_match h hm, segments]
    refine forall_mem_cons.mpr ⟨⟨Nat.le_refl _, h, .inr (getElem?_match hm hb), ?_⟩, ?_⟩
    · intro j c hj hlt hc
      rw [hc, length_singleton] at hlt
      exact hno j c hj (by omega) hc
    · intro s hs
      obtain ⟨h1, hrest⟩ := ih (Nat.le_refl _) h (by omega) s hs
      exact ⟨by omega, hrest⟩
  | case2 i h hm ih =>
    rw [cuts_skip h hm]
    refine ih (by omega) (by omega) fun j c hj hlt hc hget => ?_
    rcases Nat.lt_succ_iff_lt_or_eq.mp hlt with hlt | rfl
    · exact hno j c hj hlt hc hget
    · refine hm ?_
      rw [hc, length_singleton, take_one, List.head?_drop, hget]
      rfl
  | case3 i h =>
    rw [cuts_done h, segments]
    split
    · refine forall_mem_cons.mpr ⟨⟨Nat.le_refl _, Nat.le_refl _, .inl rfl, ?_⟩, by simp⟩
      intro j c hj hlt hc
      rw [hc, length_singleton] at h
      exact hno j c hj (by simp only at hlt; omega) hc
    · simp

theorem steps_end {step : Nat} (hstep : 0 < step) : ∀ {p : Nat}, ∀ s ∈ steps step hstep p stop,
    p < s.2 ∧ s.2 ≤ stop := by
  intro p
  induction p using steps.induct step hstep stop with
  | case1 p h ih =>
    rw [steps, dif_pos h]
    refine forall_mem_cons.mpr ⟨⟨by simp only; omega, Nat.min_le_right _ _⟩, fun s hs => ?_⟩
    have := ih s hs
    exact ⟨by omega, this.2⟩
  | case2 p h =>
    rw [steps, dif_neg h]
    simp

/-- The pieces of a span end well if the span does. Of the two breaks, those that are still to be
    looked for may be anywhere; the others are at most its last character. -/
theorem pieces_end (hsize : 1 ≤ size) : ∀ (seps : List Separator) {start stop : Nat},
    (∀ sep ∈ seps, ∃ b, sep.1.getLast? = some b ∧ isBreak b = true) →
    (∀ c, isBreak c = true → (∃ sep ∈ seps, sep.1 = [c]) ∨
      ∀ j, start ≤ j → j + 1 < stop → chars[j]? ≠ some c) →
    stop ≤ chars.length → EndsWell chars size stop →
    ∀ p ∈ pieces chars size overlap seps start stop, EndsWell chars size p.2
  | seps, start, stop, hseps, hfree, hstop, hend => by
    by_cases h : stop - start ≤ size
    · by_cases hlt : start < stop
      · rw [pieces_short h hlt]
        simpa using hend
      · rw [pieces_empty (Nat.le_of_not_lt hlt)]
        simp
    · match seps with
      | [] =>
        rw [pieces_nil h]
        intro p hp
        obtain ⟨h1, h2⟩ := steps_end _ p hp
        rcases Nat.eq_or_lt_of_le h2 with e | hlt
        · exact e ▸ hend
        · have hunb : Unbroken chars start (stop - 1) := by
            intro j c hj hlt hc
            rw [← Bool.not_eq_true]
            intro hbr
            rcases hfree c hbr with ⟨_, hmem, -⟩ | hno
            · cases hmem
            · exact hno j hj (by omega) hc
          obtain ⟨a, b, ha, hb, hs⟩ := exists_stretch (by omega) hunb
          exact .inr (.inr ⟨a, b, hs, by omega, by omega, by omega⟩)
      | sep :: rest =>
        obtain ⟨⟨b, hb, hbr⟩, hrest⟩ := forall_mem_cons.mp hseps
        rw [pieces_cons h]
        intro p hp
        obtain ⟨s, hs, hp⟩ := mem_flatMap.mp hp
        obtain ⟨h1, h2, h3, h4⟩ := segments_end hb (Nat.le_refl start) (by omega) (by omega) s hs
        have hsend : EndsWell chars size s.2 := by
          rcases h3 with e | ⟨q, hq, hc⟩
          · exact e ▸ hend
          · exact .inr (.inl ⟨q, b, hq, hc, hbr⟩)
        unfold segmentPieces at hp
        split at hp
        · rw [mem_singleton.mp hp]
          exact hsend
        · refine pieces_end hsize rest hrest (fun c hc => ?_) (by omega) hsend p hp
          rcases hfree c hc with ⟨t, ht, e⟩ | hno
          · rcases mem_cons.mp ht with rfl | ht
            · exact .inr fun j hj hlt => h4 j c hj hlt e
            · exact .inl ⟨t, ht, e⟩
          · exact .inr fun j hj hlt => hno j (by omega) (by omega)

/-- A merged span ends where one of its pieces does. -/
theorem merge_end : ∀ {ps : List Span} {w : Span}, ∀ v ∈ merge size overlap w ps,
    v.2 = w.2 ∨ ∃ p ∈ ps, v.2 = p.2
  | [], w, v, hv => .inl (by rw [mem_singleton.mp hv])
  | p :: ps, w, v, hv => by
    have hlater : ∀ {s : Nat}, v ∈ merge size overlap (s, p.2) ps → ∃ q ∈ p :: ps, v.2 = q.2 := by
      intro s hv
      rcases merge_end v hv with e | ⟨q, hq, e⟩
      · exact ⟨p, mem_cons_self, e⟩
      · exact ⟨q, mem_cons_of_mem _ hq, e⟩
    rw [merge] at hv
    split at hv
    · exact .inr (hlater hv)
    · rcases mem_cons.mp hv with rfl | hv
      · exact .inl rfl
      · exact .inr (hlater hv)

theorem endsWell_of_mem_attempts (hsize : 1 ≤ size) {w : Span}
    (hw : w ∈ attempts chars size overlap) :
    EndsWell chars size w.2 := by
  have hbreak : ∀ sep ∈ separators, ∃ b, sep.1.getLast? = some b ∧ isBreak b = true := by
    have hany : ∀ sep ∈ separators, sep.1.getLast?.any isBreak = true := by decide
    intro sep hsep
    have h := hany sep hsep
    cases hl : sep.1.getLast? with
    | none => simp [hl] at h
    | some b => exact ⟨b, rfl, by simpa [hl] using h⟩
  have hpieces : ∀ p ∈ pieces chars size overlap separators 0 chars.length,
      EndsWell chars size p.2 := by
    refine pieces_end hsize separators hbreak (fun c hc => ?_) (Nat.le_refl _) (.inl rfl)
    have hcases : c = ' ' ∨ c = '\n' := by simpa [isBreak] using hc
    rcases hcases with rfl | rfl
    · exact .inl ⟨⟨[' '], by decide⟩, by decide, rfl⟩
    · exact .inl ⟨⟨['\n'], by decide⟩, by decide, rfl⟩
  unfold attempts at hw
  split at hw
  · cases hw
  · rename_i p ps e
    rw [e] at hpieces
    obtain ⟨hp, hps⟩ := forall_mem_cons.mp hpieces
    rcases merge_end w hw with e | ⟨q, hq, e⟩
    · exact e ▸ hp
    · exact e ▸ hps q hq

/-- A stretch that shares a position with another one holds it. -/
theorem Stretch.holds {a b a' b' q : Nat} (h : Stretch chars a b) (h' : Stretch chars a' b')
    (ha : a ≤ q) (hb : q < b) (ha' : a' ≤ q) (hb' : q < b') : a ≤ a' ∧ b' ≤ b := by
  constructor
  · by_contra hlt
    rcases h.left with h0 | ⟨r, c, hr, hc, hbr⟩
    · omega
    · rw [h'.free r c (by omega) (by omega) hc] at hbr
      cases hbr
  · by_contra hlt
    rcases h.right with hend | ⟨c, hc, hbr⟩
    · have := h'.le
      omega
    · rw [h'.free b c (by omega) (by omega) hc] at hbr
      cases hbr

end Ends

/-- **Where a span ends**: at the end of the text, after a space or a newline, or behind a character
    of a stretch of at least `size` characters without them. So a shorter stretch is never cut, and
    between a carriage return and its newline the text is cut only behind at least `size`
    characters. -/
theorem attempts_end (text : Text) (size overlap : Nat) (hsize : 1 ≤ size) :
    ∀ w ∈ attempts text size overlap,
      EndsWell text size w.2 ∧
      (∀ a b, Stretch text a b → a < w.2 → w.2 < b → size ≤ b - a) ∧
      ∀ q, w.2 = q + 1 → text[q]? = some '\r' → text[q + 1]? = some '\n' →
        ∃ a, Stretch text a (q + 1) ∧ size ≤ q + 1 - a := by
  intro w hw
  have hend := endsWell_of_mem_attempts hsize hw
  refine ⟨hend, fun a b hs ha hb => ?_, fun q hq hcr hlf => ?_⟩
  · rcases hend with e | ⟨q, c, hq, hc, hbr⟩ | ⟨a', b', hs', hlen, ha', hb'⟩
    · have := hs.le
      omega
    · rw [hs.free q c (by omega) (by omega) hc] at hbr
      cases hbr
    · obtain ⟨q, hq⟩ : ∃ q, w.2 = q + 1 := ⟨w.2 - 1, by omega⟩
      obtain ⟨h1, h2⟩ := hs.holds hs' (q := q) (by omega) (by omega) (by omega) (by omega)
      omega
  · rcases hend with e | ⟨r, c, hr, hc, hbr⟩ | ⟨a, b, hs, hlen, ha, hb⟩
    · rw [List.getElem?_eq_none (by omega)] at hlf
      cases hlf
    · obtain rfl : r = q := by omega
      rw [hcr] at hc
      cases hc
      exact absurd hbr (by decide)
    · -- the newline is not in the stretch
      have hbq : b = q + 1 := by
        by_contra hne
        exact absurd (hs.free (q + 1) '\n' (by omega) (by omega) hlf) (by decide)
      subst hbq
      exact ⟨a, hs, hlen⟩

/-- A word as long as a chunk, with its newline. -/
def crlfText : Text := "aaaa\r\nb".toList

/-- The first span ends between the carriage return and the newline, at the end of the word and not
    inside it. -/
theorem crlf_cut :
    attempts crlfText 5 0 = [(0, 5), (5, 7)] ∧ crlfText[4]? = some '\r' ∧ crlfText[5]? = some '\n' ∧
      ¬ (5 = crlfText.length ∨ AfterBreak crlfText 5 ∨
        ∃ a b, Stretch crlfText a b ∧ 5 ≤ b - a ∧ a < 5 ∧ 5 < b) := by
  refine ⟨by decide +kernel, by decide, by decide, ?_⟩
  rintro (h | ⟨q, c, hq, hc, hbr⟩ | ⟨a, b, hs, -, ha, hb⟩)
  · exact absurd h (by decide)
  · obtain rfl : q = 4 := by omega
    have hc' : crlfText[4]? = some '\r' := by decide
    rw [hc'] at hc
    cases hc
    exact absurd hbr (by decide)
  · exact absurd (hs.free 5 '\n' (by omega) hb (by decide)) (by decide)

theorem crlf_ends : EndsWell crlfText 5 5 :=
  (attempts_end crlfText 5 0 (by decide) (0, 5) (by decide +kernel)).1

end Postvec.Chunking
