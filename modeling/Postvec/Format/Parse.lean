import Postvec.Format.Grammar

/-!
# Format templates: the worker's parser

`parse_format` and `format_referenced_columns` of the core crate, with the texts and byte positions
of their errors. The parser runs over `char_indices`, the characters with their byte positions; its
two inner loops are `nameLoop` and `braceLoop`.

Result: `parseLoop_reads` and `reads_parseLoop`, the parser's main loop accepts exactly the texts
the grammar reads, and the columns of its segments are the columns of the reading.
-/

namespace Postvec

open List

/-! ## 1. The parser -/

def formatMaxBytes : Nat := 16 * 1024
def formatMaxRefs : Nat := 64

/-- One parsed segment; adjacent literal text is one segment. -/
inductive FormatSeg where
  | literal (s : Text)
  | column (name : Text)
deriving DecidableEq, Repr

/-- A parse error, with the byte position it was detected at. -/
structure FormatError where
  pos : Nat
  msg : String
deriving DecidableEq, Repr

/-- The error as the worker prints it. -/
def FormatError.toText (e : FormatError) : String :=
  e.msg ++ " (at byte " ++ toString e.pos ++ ")"

/-- `char_indices`, from byte position `pos` on. -/
def charIndices (pos : Nat) : Text → List (Nat × Char)
  | [] => []
  | c :: cs => (pos, c) :: charIndices (pos + c.utf8Size) cs

@[simp] theorem map_charIndices : ∀ (t : Text) (pos : Nat),
    (charIndices pos t).map Prod.snd = t
  | [], _ => rfl
  | c :: cs, pos => by simp [charIndices, map_charIndices cs]

/-- The `push_column` closure: pending literal text first, then the column. -/
def pushColumn (segs : List FormatSeg) (lit name : Text) : List FormatSeg :=
  (if lit = [] then segs else segs ++ [.literal lit]) ++ [.column name]

/-- The loop over the characters of `$name`. -/
def nameLoop (name : Text) : List (Nat × Char) → Text × List (Nat × Char)
  | [] => (name, [])
  | (p, c) :: cs => if isNameChar c then nameLoop (name ++ [c]) cs else (name, (p, c) :: cs)

/-- The loop inside `${...}`; `none` when the text ends before the closing brace. -/
def braceLoop (name : Text) : List (Nat × Char) → Option (Text × List (Nat × Char))
  | [] => none
  | (_, c) :: cs =>
    if c = '}' then
      match cs with
      | (_, '}') :: cs' => braceLoop (name ++ ['}']) cs'
      | _ => some (name, cs)
    else braceLoop (name ++ [c]) cs

theorem nameLoop_length : ∀ (cs : List (Nat × Char)) (name : Text),
    (nameLoop name cs).2.length ≤ cs.length
  | [], _ => by simp [nameLoop]
  | (p, c) :: cs, name => by
    unfold nameLoop
    split
    · exact (nameLoop_length cs _).trans (by simp)
    · simp

variable {cs : List (Nat × Char)} {name n t : Text} {rest : List (Nat × Char)}
  {segs : List FormatSeg} {ss : List Tok}

theorem braceLoop_length (h : braceLoop name cs = some (n, rest)) : rest.length < cs.length := by
  fun_induction braceLoop name cs with
  | case1 => simp at h
  | case2 name p p' cs' ih =>
    have := ih h
    simp only [length_cons]
    omega
  | case3 name p cs hcs =>
    simp only [Option.some.injEq, Prod.mk.injEq] at h
    simp [h.2]
  | case4 name p c cs hc ih =>
    have := ih h
    simp only [length_cons]
    omega

def unclosedMsg : String := "unclosed $\x7b...\x7d column reference"
def emptyRefMsg : String := "empty $\x7b\x7d column reference"
def danglingMsg : String :=
  "dangling '$' (use '$$' for a literal dollar sign, $name or $\x7bname\x7d for a column reference)"

/-- The `while let Some((pos, ch)) = chars.next()` loop, and the literal text left at its end. -/
def parseLoop (segs : List FormatSeg) (lit : Text) (chars : List (Nat × Char)) :
    Except FormatError (List FormatSeg) :=
  match chars with
  | [] => .ok (if lit = [] then segs else segs ++ [.literal lit])
  | (pos, ch) :: cs =>
    if ch ≠ '$' then parseLoop segs (lit ++ [ch]) cs
    else
      match cs with
      | [] => .error ⟨pos, danglingMsg⟩
      | (bracePos, c) :: cs' =>
        if c = '$' then parseLoop segs (lit ++ ['$']) cs'
        else if isNameStart c then
          let r := nameLoop [c] cs'
          parseLoop (pushColumn segs lit r.1) [] r.2
        else if c = '{' then
          match _h : braceLoop [] cs' with
          | none => .error ⟨bracePos, unclosedMsg⟩
          | some (name, rest) =>
            if name = [] then .error ⟨bracePos, emptyRefMsg⟩
            else parseLoop (pushColumn segs lit name) [] rest
        else .error ⟨pos, danglingMsg⟩
termination_by chars.length
decreasing_by
  · simp
  · simp only [length_cons]
    omega
  · have := nameLoop_length cs' [c]
    simp only [length_cons]
    omega
  · have := braceLoop_length _h
    simp only [length_cons]
    omega

/-- The column names of the segments, in order. -/
def segCols : List FormatSeg → List Text
  | [] => []
  | .literal _ :: ss => segCols ss
  | .column n :: ss => n :: segCols ss

/-- `format_referenced_columns`: distinct referenced columns in first-occurrence order. -/
def formatReferencedColumns (segs : List FormatSeg) : List Text :=
  segs.foldl (fun out seg => match seg with
    | .literal _ => out
    | .column c => addRef out c) []

/-- `parse_format`. -/
def parseFormat (template : Text) : Except FormatError (List FormatSeg) :=
  if template = [] then
    .error ⟨0, "the template is empty (use NULL to clear a template)"⟩
  else if byteLen template > formatMaxBytes then
    .error ⟨formatMaxBytes,
      "the template is " ++ toString (byteLen template) ++ " bytes (max 16384)"⟩
  else
    match parseLoop [] [] (charIndices 0 template) with
    | .error e => .error e
    | .ok segs =>
      if (formatReferencedColumns segs).length > formatMaxRefs then
        .error ⟨0, toString (formatReferencedColumns segs).length ++
          " distinct columns referenced (max 64)"⟩
      else .ok segs

/-! ## 2. What the loops read -/

theorem nameLoop_spec : ∀ (cs : List (Nat × Char)) (name : Text),
    (nameLoop name cs).1 = name ++ (cs.map Prod.snd).takeWhile isNameChar ∧
    (nameLoop name cs).2.map Prod.snd = (cs.map Prod.snd).dropWhile isNameChar
  | [], name => by simp [nameLoop]
  | (p, c) :: cs, name => by
    unfold nameLoop
    split
    · rename_i hc
      have ih := nameLoop_spec cs (name ++ [c])
      simp [hc, ih.1, ih.2]
    · rename_i hc
      simp [hc]

theorem braceLoop_braced (h : braceLoop name cs = some (n, rest)) :
    ∃ m, n = name ++ m ∧ Braced (cs.map Prod.snd) m (rest.map Prod.snd) := by
  fun_induction braceLoop name cs with
  | case1 => simp at h
  | case2 name p p' cs' ih =>
    obtain ⟨m, e, hb⟩ := ih h
    exact ⟨'}' :: m, by simp [e], .brace hb⟩
  | case3 name p cs hcs =>
    simp only [Option.some.injEq, Prod.mk.injEq] at h
    obtain ⟨rfl, rfl⟩ := h
    refine ⟨[], by simp, .close ?_⟩
    cases cs with
    | nil => simp
    | cons d ds =>
      obtain ⟨q, d⟩ := d
      rintro e
      simp only [map_cons, List.head?_cons, Option.some.injEq] at e
      exact hcs q ds (by rw [e])
  | case4 name p c cs hc ih =>
    obtain ⟨m, e, hb⟩ := ih h
    exact ⟨c :: m, by simp [e], .char hc hb⟩

theorem braced_braceLoop {m r : Text} (h : Braced t m r) :
    ∀ (cs : List (Nat × Char)) (name : Text), cs.map Prod.snd = t →
      ∃ rest, braceLoop name cs = some (name ++ m, rest) ∧ rest.map Prod.snd = r := by
  induction h with
  | @close r hr =>
    rintro cs name e
    obtain ⟨⟨p, c⟩, cs', rfl, rfl, e'⟩ := map_eq_cons_iff.mp e
    refine ⟨cs', ?_, e'⟩
    unfold braceLoop
    rw [if_pos rfl]
    split
    · rename_i q ds
      simp [← e'] at hr
    · simp
  | @brace cs₀ m r _ ih =>
    rintro cs name e
    obtain ⟨⟨p, c⟩, cs', rfl, rfl, e'⟩ := map_eq_cons_iff.mp e
    obtain ⟨⟨p', c'⟩, cs'', rfl, rfl, e''⟩ := map_eq_cons_iff.mp e'
    obtain ⟨rest, hb, hr⟩ := ih cs'' (name ++ ['}']) e''
    refine ⟨rest, ?_, hr⟩
    simpa [braceLoop] using hb
  | @char c cs₀ m r hc _ ih =>
    rintro cs name e
    obtain ⟨⟨p, d⟩, cs', rfl, rfl, e'⟩ := map_eq_cons_iff.mp e
    obtain ⟨rest, hb, hr⟩ := ih cs' (name ++ [d]) e'
    refine ⟨rest, ?_, hr⟩
    unfold braceLoop
    rw [if_neg hc, hb]
    simp

/-- One token onto the segments and the pending literal text. -/
def pushTok (s : List FormatSeg × Text) : Tok → List FormatSeg × Text
  | .lit c => (s.1, s.2 ++ [c])
  | .col n => (pushColumn s.1 s.2 n, [])

/-- The pending literal text becomes a segment. -/
def flushLit (s : List FormatSeg × Text) : List FormatSeg :=
  if s.2 = [] then s.1 else s.1 ++ [.literal s.2]

/-- A reading as segments: adjacent literal characters are one segment. -/
def segsOf (segs : List FormatSeg) (lit : Text) (ss : List Tok) : List FormatSeg :=
  flushLit (ss.foldl pushTok (segs, lit))

theorem parseLoop_reads {lit : Text} {out : List FormatSeg} (h : parseLoop segs lit cs = .ok out) :
    ∃ ss, Reads (cs.map Prod.snd) ss ∧ out = segsOf segs lit ss := by
  fun_induction parseLoop segs lit cs with
  | case1 segs lit =>
    simp only [Except.ok.injEq] at h
    exact ⟨[], .nil, h.symm⟩
  | case2 segs lit pos ch cs hch ih =>
    obtain ⟨ss, hr, e⟩ := ih h
    exact ⟨.lit ch :: ss, .char hch hr, e⟩
  | case3 => simp at h
  | case4 segs lit pos ch hd _ cs' ih =>
    obtain rfl := not_not.mp hd
    obtain ⟨ss, hr, e⟩ := ih h
    exact ⟨.lit '$' :: ss, .dollar hr, e⟩
  | case5 segs lit pos ch hd _ c cs' _ hc r ih =>
    obtain rfl := not_not.mp hd
    obtain ⟨ss, hr, e⟩ := ih h
    obtain ⟨h1, h2⟩ := nameLoop_spec cs' [c]
    have hn : isNameChar c = true := isNameStart_isNameChar hc
    have hr' : Reads ((c :: cs'.map Prod.snd).dropWhile isNameChar) ss := by
      simpa [hn, ← h2] using hr
    refine ⟨.col r.1 :: ss, ?_, e⟩
    have e1 : r.1 = (c :: cs'.map Prod.snd).takeWhile isNameChar := by simp [r, h1, hn]
    rw [e1]
    exact .simple hc hr'
  | case6 | case7 => simp at h
  | case8 segs lit pos ch hd bracePos cs' name rest hb hne _ _ ih =>
    obtain rfl := not_not.mp hd
    obtain ⟨ss, hr, e⟩ := ih h
    obtain ⟨m, em, hbr⟩ := braceLoop_braced hb
    rw [nil_append] at em
    subst em
    exact ⟨.col name :: ss, .braced hbr hne hr, e⟩
  | case9 => simp at h

theorem reads_parseLoop (h : Reads t ss) :
    ∀ (cs : List (Nat × Char)) (segs : List FormatSeg) (lit : Text), cs.map Prod.snd = t →
      parseLoop segs lit cs = .ok (segsOf segs lit ss) := by
  induction h with
  | nil =>
    rintro cs segs lit e
    obtain rfl := map_eq_nil_iff.mp e
    unfold parseLoop
    rfl
  | char hc _ ih =>
    rintro cs segs lit e
    obtain ⟨⟨p, c⟩, cs', rfl, rfl, e'⟩ := map_eq_cons_iff.mp e
    unfold parseLoop
    rw [if_pos hc]
    exact ih cs' segs _ e'
  | dollar _ ih =>
    rintro cs segs lit e
    obtain ⟨⟨p, c⟩, cs', rfl, rfl, e'⟩ := map_eq_cons_iff.mp e
    obtain ⟨⟨p', c'⟩, cs'', rfl, rfl, e''⟩ := map_eq_cons_iff.mp e'
    unfold parseLoop
    rw [if_neg (by simp)]
    exact ih cs'' segs (lit ++ ['$']) e''
  | @simple c cs₀ ss hc _ ih =>
    rintro cs segs lit e
    obtain ⟨⟨p, d⟩, cs', rfl, rfl, e'⟩ := map_eq_cons_iff.mp e
    obtain ⟨⟨p', c⟩, cs'', rfl, rfl, rfl⟩ := map_eq_cons_iff.mp e'
    have hn : isNameChar c = true := isNameStart_isNameChar hc
    obtain ⟨h1, h2⟩ := nameLoop_spec cs'' [c]
    have h1' : (nameLoop [c] cs'').1 = (c :: cs''.map Prod.snd).takeWhile isNameChar := by
      simp [h1, hn]
    have h2' : (nameLoop [c] cs'').2.map Prod.snd =
        (c :: cs''.map Prod.snd).dropWhile isNameChar := by simp [h2, hn]
    unfold parseLoop
    rw [if_neg (by simp)]
    show (if c = '$' then _ else if isNameStart c = true then _ else _) = _
    rw [if_neg (isNameStart_ne_dollar hc), if_pos hc]
    simp only [h1']
    exact ih _ _ [] h2'
  | @braced cs₀ name rest ss hb hne _ ih =>
    rintro cs segs lit e
    obtain ⟨⟨p, d⟩, cs', rfl, rfl, e'⟩ := map_eq_cons_iff.mp e
    obtain ⟨⟨p', c⟩, cs'', rfl, rfl, e''⟩ := map_eq_cons_iff.mp e'
    obtain ⟨rest', hl, hr⟩ := braced_braceLoop hb cs'' [] e''
    unfold parseLoop
    rw [if_neg (by simp)]
    have hs : isNameStart '{' = false := by decide
    simp only [Char.reduceEq, if_false, hs, Bool.false_eq_true, if_true]
    split
    · rename_i hn
      rw [hn] at hl
      simp at hl
    · rename_i n r hn
      rw [hn] at hl
      simp only [nil_append, Option.some.injEq, Prod.mk.injEq] at hl
      obtain ⟨rfl, rfl⟩ := hl
      rw [if_neg hne]
      exact ih _ _ [] hr

/-! ## 3. The columns of what was parsed -/

theorem segCols_append : ∀ (a b : List FormatSeg), segCols (a ++ b) = segCols a ++ segCols b
  | [], _ => rfl
  | .literal _ :: a, b => segCols_append a b
  | .column n :: a, b => by simp [segCols, segCols_append a b]

theorem segCols_segsOf : ∀ (ss : List Tok) (segs : List FormatSeg) (lit : Text),
    segCols (segsOf segs lit ss) = segCols segs ++ colsOf ss
  | [], segs, lit => by
    by_cases hl : lit = [] <;> simp [segsOf, flushLit, hl, segCols_append, segCols]
  | .lit c :: ss, segs, lit => segCols_segsOf ss segs (lit ++ [c])
  | .col n :: ss, segs, lit => by
    have ih := segCols_segsOf ss (pushColumn segs lit n) []
    have e : segCols (pushColumn segs lit n) = segCols segs ++ [n] := by
      by_cases hl : lit = [] <;> simp [pushColumn, hl, segCols_append, segCols]
    show segCols (segsOf (pushColumn segs lit n) [] ss) = _
    rw [ih, e]
    simp

theorem formatReferencedColumns_eq (segs : List FormatSeg) :
    formatReferencedColumns segs = firsts (segCols segs) := by
  suffices ∀ (segs : List FormatSeg) (out : List Text),
      segs.foldl (fun out seg => match seg with
        | .literal _ => out
        | .column c => addRef out c) out = (segCols segs).foldl addRef out from this segs []
  intro segs
  induction segs with
  | nil => exact fun _ => rfl
  | cons seg segs ih =>
    cases seg with
    | literal _ => exact ih
    | column c => exact fun out => ih (addRef out c)

/-- All readings of a text have the same columns. -/
theorem Reads.colsOf_unique {ss' : List Tok} (h : Reads t ss) (h' : Reads t ss') :
    colsOf ss = colsOf ss' := by
  have e := reads_parseLoop h (charIndices 0 t) [] [] (map_charIndices t 0)
  rw [reads_parseLoop h' (charIndices 0 t) [] [] (map_charIndices t 0)] at e
  have e' := congrArg segCols (Except.ok.inj e)
  rw [segCols_segsOf, segCols_segsOf] at e'
  exact e'.symm

/-- What `parse_format` accepts, and what it answers. -/
theorem parseFormat_ok_iff :
    parseFormat t = .ok segs ↔
      t ≠ [] ∧ byteLen t ≤ formatMaxBytes ∧
        ∃ ss, Reads t ss ∧ (colsOf ss).toFinset.card ≤ formatMaxRefs ∧ segs = segsOf [] [] ss := by
  have hcols : ∀ ss, formatReferencedColumns (segsOf [] [] ss) = firsts (colsOf ss) := fun ss => by
    rw [formatReferencedColumns_eq, segCols_segsOf]
    simp [segCols]
  unfold parseFormat
  constructor
  · intro h
    split at h
    · simp at h
    rename_i hne
    split at h
    · simp at h
    rename_i hlen
    split at h
    · simp at h
    rename_i segs' hp
    split at h
    · simp at h
    rename_i hrefs
    simp only [Except.ok.injEq] at h
    subst h
    obtain ⟨ss, hr, rfl⟩ := parseLoop_reads hp
    rw [map_charIndices] at hr
    rw [hcols, length_firsts] at hrefs
    exact ⟨hne, by omega, ss, hr, by omega, rfl⟩
  · rintro ⟨hne, hlen, ss, hr, hcard, rfl⟩
    rw [if_neg hne, if_neg (by omega),
      reads_parseLoop hr (charIndices 0 t) [] [] (map_charIndices t 0)]
    show (if (formatReferencedColumns (segsOf [] [] ss)).length > formatMaxRefs then _ else _) = _
    rw [hcols, length_firsts, if_neg (by omega)]

end Postvec
