import Postvec.Chunking.Spans

/-!
# The output budget

The attempted spans of a document may total four times its characters, which is meant to admit any
overlap up to three quarters of `chunk_size`. For text without separators it does. Between
separators it is two consecutive chunks that advance by `size - overlap + 1` characters together,
and both carry the whole overlap.

Result: `budget_suffices_iff`, for which geometries no document within the byte limit exceeds the
budget (`RoomFor`). The worst document opens with `overlap + 1` characters and goes on in words of
`size - overlap` characters and of one character in turn.
-/

namespace Postvec.Chunking

open Machine List

/-- The call ends over the output budget. -/
def Overruns (r : Except Halt (List Chunk)) : Prop :=
  ∃ chars budget, r = .error (.error (.outputBudgetExceeded chars budget))

/-- The pairs of words that fit in the byte limit do not use up the head start. -/
def RoomFor (size overlap : Nat) : Prop :=
  (maxDocumentBytes - (overlap + 1)) / (size + 1 - overlap) * (5 * overlap - 3 * (size + 1)) ≤
    3 * (overlap + 1)

instance (size overlap : Nat) : Decidable (RoomFor size overlap) :=
  inferInstanceAs (Decidable (_ ≤ _))

/-! ## 1. Enough room -/

theorem length_le_byteLen : ∀ (t : Text), t.length ≤ byteLen t
  | [] => Nat.le_refl _
  | c :: t => by
    have ih := length_le_byteLen t
    have hc := Char.utf8Size_pos c
    simp only [byteLen, map_cons, sum_cons, length_cons] at ih ⊢
    omega

variable {size overlap t : Nat}

/-- `t` pairs of words that fit in the byte limit. -/
theorem RoomFor.pairs (h : RoomFor size overlap) (ho : overlap ≤ size)
    (ht : t * (size + 1 - overlap) + (overlap + 1) ≤ maxDocumentBytes) :
    t * (5 * overlap) ≤ t * (3 * (size + 1)) + 3 * (overlap + 1) := by
  have hle : t ≤ (maxDocumentBytes - (overlap + 1)) / (size + 1 - overlap) := by
    rw [Nat.le_div_iff_mul_le (by omega)]
    omega
  have hmul : t * (5 * overlap - 3 * (size + 1)) ≤ 3 * (overlap + 1) :=
    (Nat.mul_le_mul_right _ hle).trans h
  rw [Nat.mul_sub] at hmul
  omega

/-- In a geometry with room, windows within the byte limit stay within four times their reach. -/
theorem RoomFor.total_le (h : RoomFor size overlap)
    (hq : 4 * overlap ≤ 3 * size) {w v : Nat × Nat} {ws : List (Nat × Nat)}
    (hw : Windows size overlap (w :: v :: ws)) (hmax : w.2 ≤ maxDocumentBytes) :
    total (w :: v :: ws) ≤ 4 * w.2 := by
  have ho : overlap ≤ size := by omega
  obtain ⟨t, r, hr, hk, hroom⟩ := hw.room ho
  have htotal := hw.total_le
  have hlen : (v :: ws).length = ws.length + 1 := rfl
  rw [hlen] at htotal
  have hstride : t * (size + 1 - overlap) = t * (size + 1) - t * overlap := Nat.mul_sub ..
  have hto : t * overlap ≤ t * (size + 1) := Nat.mul_le_mul_left t (by omega)
  rcases Nat.lt_succ_iff_lt_or_eq.mp hr with hr | hr
  · -- an even number of windows: one pair fewer, and the first two windows
    obtain ⟨t', rfl⟩ : ∃ t', t = t' + 1 := ⟨t - 1, by omega⟩
    simp only [Nat.add_mul t' 1, Nat.one_mul] at hroom hstride hto
    have hpairs := h.pairs (t := t') ho (by omega)
    have hcount : (ws.length + 1) * overlap = 2 * (t' * overlap) + overlap := by
      rw [show ws.length + 1 = 2 * t' + 1 by omega, Nat.succ_mul, Nat.mul_assoc]
    have h5 : t' * (5 * overlap) = 5 * (t' * overlap) := Nat.mul_left_comm ..
    have h3 : t' * (3 * (size + 1)) = 3 * (t' * (size + 1)) := Nat.mul_left_comm ..
    omega
  · have hpairs := h.pairs (t := t) ho (by omega)
    have hcount : (ws.length + 1) * overlap = 2 * (t * overlap) := by
      rw [show ws.length + 1 = 2 * t by omega, Nat.mul_assoc]
    have h5 : t * (5 * overlap) = 5 * (t * overlap) := Nat.mul_left_comm ..
    have h3 : t * (3 * (size + 1)) = 3 * (t * (size + 1)) := Nat.mul_left_comm ..
    omega

variable {chunkSize chunkOverlap : Int}

theorem not_overruns_of_roomFor (hq : 4 * chunkOverlap ≤ 3 * chunkSize)
    (h : RoomFor chunkSize.toNat chunkOverlap.toNat) {text : Text}
    (hb : byteLen text ≤ maxDocumentBytes) :
    ¬ Overruns (splitRecursive text chunkSize chunkOverlap) := by
  rintro ⟨chars, budget, hr⟩
  have hends := splitRecursive_ends text chunkSize chunkOverlap
  rw [hr] at hends
  cases hends with
  | error he =>
    rcases he with he | ⟨_, he⟩
    · rcases he with ⟨_, _, he⟩ | ⟨_, he⟩ <;> cases he
    · rcases he with he | ⟨w, ws, hw, hwn, hover, _⟩
      · cases he
      · have hn := length_le_byteLen text
        cases ws with
        | nil =>
          have hfit := (hw.bounds w mem_cons_self).2
          simp only [total_cons, total_nil] at hover
          omega
        | cons v ws =>
          have htot := h.total_le (by omega) hw (by omega)
          simp only [maxOutputAmplification] at hover
          omega

/-! ## 2. Documents of words -/

theorem space_length : 0 < [' '].length := Nat.one_pos

/-- The last separator of the hierarchy. -/
def space : Separator := ⟨[' '], space_length⟩

/-- Words, each with a space after it. -/
def wordText (words : List Text) : Text := words.flatMap fun w => w ++ [' ']

/-- The spans of the words, from position `p` on. -/
def wordSpans (p : Nat) : List Text → List Span
  | [] => []
  | w :: words => (p, p + w.length + 1) :: wordSpans (p + w.length + 1) words

variable {c : Char} {chars : Text} {sep : Separator} {stop : Nat}

@[simp] theorem wordText_cons (w : Text) (words : List Text) :
    wordText (w :: words) = w ++ ' ' :: wordText words := by
  simp [wordText]

/-- A separator with a character the text does not have is not found. -/
theorem cuts_absent (hc : c ∈ sep.1) (habs : c ∉ chars) : ∀ i, cuts chars sep stop i = [] := by
  intro i
  induction i using cuts.induct chars sep stop with
  | case1 i h hm ih =>
    rw [← hm] at hc
    exact absurd (mem_of_mem_drop (mem_of_mem_take hc)) habs
  | case2 i h hm ih => rw [cuts_skip h hm, ih]
  | case3 i h => exact cuts_done h

theorem pieces_absent {start : Nat} {rest : List Separator} (hc : c ∈ sep.1) (habs : c ∉ chars)
    (h : ¬ stop - start ≤ size) :
    pieces chars size overlap (sep :: rest) start stop =
      pieces chars size overlap rest start stop := by
  have hlt : start < stop := by omega
  rw [pieces_cons h, cuts_absent hc habs, segments, if_pos hlt]
  simp [segmentPieces, h]

/-- The scan for the space over a word. -/
theorem cuts_word {rest : Text} : ∀ (w : Text) {i : Nat}, ' ' ∉ w →
    chars.drop i = w ++ ' ' :: rest →
    cuts chars space chars.length i =
      (i + w.length + 1) :: cuts chars space chars.length (i + w.length + 1)
  | [], i, _, hd => by
    have hlen : i + space.1.length ≤ chars.length := by
      have := congrArg List.length hd
      simp only [length_drop, nil_append, length_cons] at this
      simp only [space, length_singleton]
      omega
    exact cuts_match hlen (by rw [hd]; rfl)
  | c :: w, i, hw, hd => by
    have hlen : i + space.1.length ≤ chars.length := by
      have := congrArg List.length hd
      simp only [length_drop, cons_append, length_cons] at this
      simp only [space, length_singleton]
      omega
    obtain ⟨hc, hw'⟩ := not_or.mp (fun h => hw (mem_cons.mpr h))
    have hmiss : ¬ (chars.drop i).take space.1.length = space.1 := by
      rw [hd]
      simp only [space, length_singleton, cons_append, take_succ_cons,
        take_zero, List.cons.injEq, and_true]
      exact fun h => hc h.symm
    have hd' : chars.drop (i + 1) = w ++ ' ' :: rest := by
      rw [← drop_drop, hd]
      rfl
    rw [cuts_skip hlen hmiss, cuts_word w hw' hd', length_cons]
    congr 1
    · omega
    · congr 1
      omega

/-- Every word is one piece of the last level, when it fits. -/
theorem segments_words {f : Span → List Span} : ∀ (words : List Text) {p : Nat},
    (∀ w ∈ words, ' ' ∉ w ∧ ∀ q, f (q, q + w.length + 1) = [(q, q + w.length + 1)]) →
    p ≤ chars.length → chars.drop p = wordText words →
    (segments p chars.length (cuts chars space chars.length p)).flatMap f = wordSpans p words
  | [], p, _, hp, hd => by
    have hle : chars.length ≤ p := drop_eq_nil_iff.mp hd
    rw [cuts_done (by simp only [space, length_singleton]; omega), segments,
      if_neg (by omega)]
    rfl
  | w :: words, p, hw, hp, hd => by
    obtain ⟨hsp, hf⟩ := hw w mem_cons_self
    rw [wordText_cons] at hd
    have hlen : p + w.length + 1 ≤ chars.length := by
      have := congrArg List.length hd
      simp only [length_drop, length_append, length_cons] at this
      omega
    have hd' : chars.drop (p + w.length + 1) = wordText words := by
      rw [Nat.add_assoc, ← drop_drop, hd, Nat.add_comm w.length 1, ← drop_drop]
      simp
    rw [cuts_word w hsp hd, segments, flatMap_cons, hf p, wordSpans,
      segments_words words (fun v hv => hw v (mem_cons_of_mem _ hv)) hlen hd']
    rfl

/-- A text of words with none of the other separators' characters is cut at its words. -/
theorem pieces_words {words : List Text} (hfit : ∀ w ∈ words, ' ' ∉ w ∧ w.length + 1 ≤ size)
    (habs : ∀ c ∈ wordText words, c ∉ ['\n', '.', '?', '!', ';', ','])
    (hlong : size < (wordText words).length) :
    pieces (wordText words) size overlap separators 0 (wordText words).length =
      wordSpans 0 words := by
  have hover : ¬ (wordText words).length - 0 ≤ size := by omega
  have hmiss : ∀ c ∈ ['\n', '.', '?', '!', ';', ','], c ∉ wordText words :=
    fun c hc h => habs c h hc
  have hnl := hmiss '\n' (by decide)
  unfold separators
  rw [pieces_absent (by decide) hnl hover, pieces_absent (by decide) hnl hover,
    pieces_absent (by decide) hnl hover, pieces_absent (by decide) hnl hover,
    pieces_absent (by decide) (hmiss '.' (by decide)) hover,
    pieces_absent (by decide) (hmiss '?' (by decide)) hover,
    pieces_absent (by decide) (hmiss '!' (by decide)) hover,
    pieces_absent (by decide) (hmiss ';' (by decide)) hover,
    pieces_absent (by decide) (hmiss ',' (by decide)) hover, pieces_cons hover]
  refine segments_words words (fun w hw => ⟨(hfit w hw).1, fun q => ?_⟩) (Nat.zero_le _) rfl
  have := (hfit w hw).2
  exact if_pos (by simp only; omega)

/-! ## 3. A document that exceeds the budget -/

/-- `t` pairs of words, of `size - overlap` characters and of one character. -/
def pairs (size overlap : Nat) : Nat → List Text
  | 0 => []
  | t + 1 => List.replicate (size - overlap - 1) '\t' :: [] :: pairs size overlap t

/-- The opening word and `t` pairs. Everything after the first character is whitespace, so only the
    first chunk counts towards the cap on chunks. -/
def crowdedWords (size overlap t : Nat) : List Text :=
  ('x' :: List.replicate (overlap - 1) '\t') :: pairs size overlap t

/-- The spans attempted over `t` pairs: of each pair one of `overlap + 1` and one of `size`
    characters, and the one that is left. -/
theorem total_merge_pairs (ho : overlap < size) : ∀ (t b : Nat),
    total (merge size overlap (b, b + overlap + 1)
      (wordSpans (b + overlap + 1) (pairs size overlap t))) =
        t * (size + overlap + 1) + (overlap + 1)
  | 0, b => by
    simp only [pairs, wordSpans, merge, total_cons, total_nil]
    omega
  | t + 1, b => by
    have hlong : b + overlap + 1 + (size - overlap - 1) + 1 = b + size + 1 := by omega
    have hshort : b + size + 1 + 0 + 1 = b + (size + 1 - overlap) + overlap + 1 := by omega
    -- the whole overlap is carried twice
    have hnext : max (max (b + overlap + 1 - overlap) (b + 1))
        (b + overlap + 1 + (b + size + 1 - (b + overlap + 1)) - size) = b + 1 := by omega
    have hnext' : max (max (b + size + 1 - overlap) (b + 1 + 1)) (b + size + 1 +
        (b + (size + 1 - overlap) + overlap + 1 - (b + size + 1)) - size) =
        b + (size + 1 - overlap) := by omega
    rw [pairs, wordSpans, wordSpans, length_replicate, length_nil, hlong, hshort, merge,
      if_neg (by simp only; omega), hnext, merge, if_neg (by simp only; omega), hnext', total_cons,
      total_cons, total_merge_pairs ho t, Nat.succ_mul]
    omega

theorem length_wordText_pairs (ho : overlap < size) : ∀ t : Nat,
    (wordText (pairs size overlap t)).length = t * (size + 1 - overlap)
  | 0 => by simp [pairs, wordText]
  | t + 1 => by
    rw [pairs, wordText_cons, wordText_cons, Nat.succ_mul]
    simp only [length_append, length_cons, length_replicate, length_nil,
      length_wordText_pairs ho t]
    omega

theorem mem_wordText_pairs (h : c ∈ wordText (pairs size overlap t)) : c = '\t' ∨ c = ' ' := by
  induction t with
  | zero => simp [pairs, wordText] at h
  | succ t ih =>
    rw [pairs, wordText_cons, wordText_cons] at h
    simp only [mem_append, mem_cons, mem_replicate, not_mem_nil,
      false_or] at h
    rcases h with ⟨_, h⟩ | h | h | h
    · exact .inl h
    · exact .inr h
    · exact .inr h
    · exact ih h

/-- The document: its first character, and whitespace. -/
theorem crowdedText_eq (size overlap t : Nat) : wordText (crowdedWords size overlap t) =
    'x' :: (List.replicate (overlap - 1) '\t' ++ ' ' :: wordText (pairs size overlap t)) := by
  rw [crowdedWords, wordText_cons, cons_append]

theorem mem_crowdedText
    (h : c ∈ wordText (crowdedWords size overlap t)) : c = 'x' ∨ c = '\t' ∨ c = ' ' := by
  rw [crowdedText_eq, mem_cons, mem_append, mem_cons, mem_replicate] at h
  rcases h with h | h | h | h
  · exact .inl h
  · exact .inr (.inl h.2)
  · exact .inr (.inr h)
  · exact .inr (mem_wordText_pairs h)

theorem kept_crowdedText {s e : Nat} (hs : 0 < s) :
    kept (wordText (crowdedWords size overlap t)) (s, e) = false := by
  obtain ⟨s', rfl⟩ : ∃ s', s = s' + 1 := ⟨s - 1, by omega⟩
  simp only [kept, Bool.not_eq_false', all_eq_true]
  intro c hc
  rw [crowdedText_eq] at hc
  have hc₁ : c ∈ ('x' :: (List.replicate (overlap - 1) '\t' ++
      ' ' :: wordText (pairs size overlap t))).drop (s' + 1) := mem_of_mem_take hc
  rw [drop_succ_cons] at hc₁
  have hc' := mem_of_mem_drop hc₁
  rw [mem_append, mem_cons, mem_replicate] at hc'
  have hws : c = '\t' ∨ c = ' ' := by
    rcases hc' with h | h | h
    · exact .inl h.2
    · exact .inr h
    · exact mem_wordText_pairs h
  rcases hws with rfl | rfl <;> decide

theorem length_crowdedText (h0 : 0 < overlap) (ho : overlap < size)
    (t : Nat) : (wordText (crowdedWords size overlap t)).length =
      overlap + 1 + t * (size + 1 - overlap) := by
  rw [crowdedText_eq]
  simp only [length_cons, length_append, length_replicate,
    length_wordText_pairs ho]
  omega

theorem byteLen_eq_length : ∀ {t : Text}, (∀ c ∈ t, c.utf8Size = 1) → byteLen t = t.length
  | [], _ => rfl
  | c :: t, h => by
    have ih := byteLen_eq_length fun d hd => h d (mem_cons_of_mem c hd)
    have hc := h c mem_cons_self
    simp only [byteLen, map_cons, sum_cons, length_cons] at ih ⊢
    omega

theorem byteLen_crowdedText (size overlap t : Nat) :
    byteLen (wordText (crowdedWords size overlap t)) =
      (wordText (crowdedWords size overlap t)).length := by
  refine byteLen_eq_length fun c hc => ?_
  rcases mem_crowdedText hc with rfl | rfl | rfl <;> rfl

/-- Words of the document fit in a chunk and hold no space. -/
theorem crowdedWords_fit (h0 : 0 < overlap) (ho : overlap < size) :
    ∀ w ∈ crowdedWords size overlap t, ' ' ∉ w ∧ w.length + 1 ≤ size := by
  have hpairs : ∀ t, ∀ w ∈ pairs size overlap t, ' ' ∉ w ∧ w.length + 1 ≤ size := by
    intro t
    induction t with
    | zero => intro w hw; cases hw
    | succ t ih =>
      intro w hw
      rcases mem_cons.mp hw with rfl | hw
      · simp only [mem_replicate, length_replicate]
        exact ⟨fun h => absurd h.2 (by decide), by omega⟩
      · rcases mem_cons.mp hw with rfl | hw
        · exact ⟨not_mem_nil, by simp only [length_nil]; omega⟩
        · exact ih w hw
  intro w hw
  rcases mem_cons.mp hw with rfl | hw
  · simp only [mem_cons, mem_replicate, length_cons, length_replicate]
    exact ⟨fun h => h.elim (by decide) fun h => absurd h.2 (by decide), by omega⟩
  · exact hpairs t w hw

/-- **The document exceeds the budget** as soon as its pairs use up the head start. -/
theorem crowdedText_overruns (hsize : chunkSize.toNat = size) (hover : chunkOverlap.toNat = overlap)
    (hneg : 0 ≤ chunkOverlap) (h0 : 0 < overlap) (ho : overlap < size) (ht : 0 < t)
    (hmax : overlap + 1 + t * (size + 1 - overlap) ≤ maxDocumentBytes)
    (hexc : t * (3 * (size + 1)) + 3 * (overlap + 1) < t * (5 * overlap)) :
    Overruns (splitRecursive (wordText (crowdedWords size overlap t)) chunkSize chunkOverlap) := by
  have hlen := length_crowdedText h0 ho t
  have hbytes := byteLen_crowdedText size overlap t
  have hpair : size + 1 - overlap ≤ t * (size + 1 - overlap) := Nat.le_mul_of_pos_left _ ht
  have hpieces : pieces (wordText (crowdedWords size overlap t)) size overlap separators 0
      (wordText (crowdedWords size overlap t)).length =
      (0, overlap + 1) :: wordSpans (overlap + 1) (pairs size overlap t) := by
    rw [pieces_words (crowdedWords_fit h0 ho) (fun c hc => ?_) (by omega), crowdedWords,
      wordSpans]
    · have e : 0 + ('x' :: List.replicate (overlap - 1) '\t').length + 1 = overlap + 1 := by
        simp only [length_cons, length_replicate]
        omega
      rw [e]
    · rcases mem_crowdedText hc with rfl | rfl | rfl <;> decide
  have hvis : ∃ c ∈ wordText (crowdedWords size overlap t), isWhitespace c = false :=
    ⟨'x', by rw [crowdedText_eq]; exact mem_cons_self, rfl⟩
  have hin := attempts_bounds overlap (by omega : 1 ≤ size)
    (by omega : 0 < (wordText (crowdedWords size overlap t)).length)
  have htotal : total (attempts (wordText (crowdedWords size overlap t)) size overlap) =
      t * (size + overlap + 1) + (overlap + 1) := by
    have h := total_merge_pairs ho t 0
    rw [Nat.zero_add] at h
    rw [attempts, hpieces]
    exact h
  -- a span that does not start the document is blank
  have hone : ((attempts (wordText (crowdedWords size overlap t)) size overlap).filter
      (kept (wordText (crowdedWords size overlap t)))).length ≤ 1 := by
    obtain ⟨w, vs, hrev, -, hw⟩ := attempts_windows (wordText (crowdedWords size overlap t)) size
      overlap (by omega) (by omega)
    have hp := hw.pairwise
    rw [← hrev, pairwise_reverse] at hp
    exact length_filter_le_one (hp.imp fun hafter _ =>
      kept_crowdedText (Nat.lt_of_le_of_lt (Nat.zero_le _) hafter.start_lt))
  rw [splitRecursive_attempts hneg (by omega) (by omega) hvis, hsize, hover]
  have hrun := emitAll_ends _ ⟨size, overlap, max ((wordText (crowdedWords size overlap t)).length *
    maxOutputAmplification) size, 0, none, []⟩ hin (Nat.zero_le _)
  generalize emitAll _ _ _ = r at hrun
  cases hrun with
  | error he =>
    rcases he with ⟨hmany, -⟩ | ⟨w, vs, -, -, rfl⟩
    · simp only [length_nil, maxChunksPerDocument] at hmany
      omega
    · exact ⟨_, _, rfl⟩
  | ok h =>
    have hle := h.2.2.2 (by
      intro hnil
      rw [hnil, total_nil] at htotal
      omega)
    have h5 : t * (5 * overlap) = 5 * (t * overlap) := Nat.mul_left_comm ..
    have h3 : t * (3 * (size + 1)) = 3 * (t * (size + 1)) := Nat.mul_left_comm ..
    have hsum : t * (size + overlap + 1) = t * (size + 1) + t * overlap := by
      rw [← Nat.mul_add]
      congr 1
      omega
    have hstride : t * (size + 1 - overlap) = t * (size + 1) - t * overlap := Nat.mul_sub ..
    have hto : t * overlap ≤ t * (size + 1) := Nat.mul_le_mul_left t (by omega)
    have hsz : size + 1 ≤ t * (size + 1) := Nat.le_mul_of_pos_left _ ht
    simp only [htotal, maxOutputAmplification] at hle
    omega

/-! ## 4. The geometries the budget admits -/

/-- **For an overlap of at most three quarters of `chunk_size`, no document within the byte limit
    exceeds the output budget if and only if the geometry leaves room.** -/
theorem budget_suffices_iff (chunkSize chunkOverlap : Int) (h0 : 0 ≤ 4 * chunkOverlap)
    (hq : 4 * chunkOverlap ≤ 3 * chunkSize) :
    (∀ text : Text, byteLen text ≤ maxDocumentBytes →
      ¬ Overruns (splitRecursive text chunkSize chunkOverlap)) ↔
    RoomFor chunkSize.toNat chunkOverlap.toNat := by
  refine ⟨fun h => ?_, fun h text hb => not_overruns_of_roomFor hq h hb⟩
  by_contra hroom
  generalize hsize : chunkSize.toNat = size at hroom
  generalize hover : chunkOverlap.toNat = overlap at hroom
  unfold RoomFor at hroom
  generalize ht : (maxDocumentBytes - (overlap + 1)) / (size + 1 - overlap) = t at hroom
  rw [Nat.mul_sub] at hroom
  have htpos : 0 < t := by
    rcases Nat.eq_zero_or_pos t with h' | h'
    · rw [h'] at hroom
      omega
    · exact h'
  have hstride : t * (size + 1 - overlap) ≤ maxDocumentBytes - (overlap + 1) :=
    ht ▸ Nat.div_mul_le_self _ _
  have hD : 3 * (size + 1) < 5 * overlap := by
    by_contra hD
    have := Nat.mul_le_mul_left t (Nat.le_of_not_lt hD)
    omega
  have hpos : 0 < t * (size + 1 - overlap) := Nat.mul_pos htpos (by omega)
  have hmax : overlap + 1 + t * (size + 1 - overlap) ≤ maxDocumentBytes := by omega
  refine h _ ?_ (crowdedText_overruns hsize hover (by omega) (by omega) (by omega) htpos hmax
    (by omega))
  rw [byteLen_crowdedText, length_crowdedText (by omega) (by omega)]
  exact hmax

/-- The default geometry. -/
theorem defaults_suffice : RoomFor 2000 200 ∧
    ∀ text : Text, byteLen text ≤ maxDocumentBytes → ¬ Overruns (splitRecursive text 2000 200) :=
  ⟨by decide, (budget_suffices_iff 2000 200 (by decide) (by decide)).mpr (by decide)⟩

/-- Seventeen words of eight letters in chunks of 64 characters with an overlap of 48. -/
theorem eightLetterWords_overrun :
    4 * 48 ≤ 3 * 64 ∧
      byteLen (wordText (List.replicate 17 (List.replicate 8 'a'))) ≤ maxDocumentBytes ∧
      splitRecursive (wordText (List.replicate 17 (List.replicate 8 'a'))) 64 48 =
        .error (.error (.outputBudgetExceeded 633 612)) := by
  decide +kernel

end Postvec.Chunking
