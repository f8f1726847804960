import Mathlib.Data.List.Chain
import Postvec.Format.Parse

/-!
# Format templates: printing what was parsed

The inverse of `parse_format`. A literal prints with every `$` doubled, a column as `$name` when the
name is a simple identifier that the text after it does not continue, else as `${...}` with every
`}` doubled. The segment lists that come back from their print are the normal forms (`NormalForm`).

Result: `parseFormat_printFormat`, every normal form is parsed from its print, and the parser
returns nothing else.
-/

namespace Postvec

open List

/-! ## 1. Printing -/

def printLiteral (s : Text) : Text := s.flatMap fun c => if c = '$' then ['$', '$'] else [c]

def printBraced (name : Text) : Text := name.flatMap fun c => if c = '}' then ['}', '}'] else [c]

/-- `[A-Za-z_][A-Za-z0-9_]*` -/
def simpleName : Text → Bool
  | [] => false
  | c :: cs => isNameStart c && cs.all isNameChar

/-- The next segment is literal text that would continue a `$name`. -/
def continuesName : List FormatSeg → Bool
  | .literal (c :: _) :: _ => isNameChar c
  | _ => false

def printFormat : List FormatSeg → Text
  | [] => []
  | .literal s :: segs => printLiteral s ++ printFormat segs
  | .column name :: segs =>
    if simpleName name && !continuesName segs then '$' :: name ++ printFormat segs
    else '$' :: '{' :: (printBraced name ++ '}' :: printFormat segs)

/-! ## 2. Normal forms -/

/-- What may stand after a segment: no literal after a literal, and after a name that needs braces
    no literal that starts with a brace. -/
def MayFollow : FormatSeg → FormatSeg → Prop
  | .literal _, .literal _ => False
  | .column name, .literal (c :: _) => simpleName name = true ∨ c ≠ '}'
  | _, _ => True

structure NormalForm (segs : List FormatSeg) : Prop where
  nonempty : segs ≠ []
  filled : ∀ seg ∈ segs, seg ≠ .literal [] ∧ seg ≠ .column []
  adjacent : segs.IsChain MayFollow
  refs : (formatReferencedColumns segs).length ≤ formatMaxRefs

/-! ## 3. A print reads as what was printed -/

/-- Segments, character by character of literal text. -/
def toksOf : List FormatSeg → List Tok
  | [] => []
  | .literal s :: segs => s.map .lit ++ toksOf segs
  | .column name :: segs => .col name :: toksOf segs

theorem colsOf_toksOf : ∀ segs : List FormatSeg, colsOf (toksOf segs) = segCols segs
  | [] => rfl
  | .literal s :: segs => by
    have ih := colsOf_toksOf segs
    induction s with
    | nil => exact ih
    | cons c s ihs => exact ihs
  | .column name :: segs => by
    rw [toksOf, colsOf_col, segCols, colsOf_toksOf segs]

variable {ss : List Tok} {t : Text}

theorem reads_printLiteral (h : Reads t ss) :
    ∀ s : Text, Reads (printLiteral s ++ t) (s.map .lit ++ ss)
  | [] => h
  | c :: s => by
    have ih := reads_printLiteral h s
    by_cases hc : c = '$'
    · subst hc
      exact .dollar ih
    · have e : printLiteral (c :: s) = c :: printLiteral s := by simp [printLiteral, hc]
      rw [e]
      exact .char hc ih

theorem braced_printBraced {rest : Text} (h : rest.head? ≠ some '}') :
    ∀ name : Text, Braced (printBraced name ++ '}' :: rest) name rest
  | [] => .close h
  | c :: name => by
    have ih := braced_printBraced h name
    by_cases hc : c = '}'
    · subst hc
      exact .brace ih
    · have e : printBraced (c :: name) = c :: printBraced name := by simp [printBraced, hc]
      rw [e]
      exact .char hc ih

variable {segs : List FormatSeg}

/-- What a print starts with: a dollar sign, or the first character of a literal. -/
theorem head_printFormat {c : Char} (hf : ∀ seg ∈ segs, seg ≠ .literal [] ∧ seg ≠ .column [])
    (h : (printFormat segs).head? = some c) :
    c = '$' ∨ ∃ s segs', segs = .literal (c :: s) :: segs' := by
  cases segs with
  | nil => cases h
  | cons seg segs =>
    cases seg with
    | literal s =>
      cases s with
      | nil => exact absurd rfl (hf _ mem_cons_self).1
      | cons d s =>
        by_cases hd : d = '$'
        · simp only [printFormat, printLiteral, hd, flatMap_cons, if_true,
            cons_append, List.head?_cons, Option.some.injEq] at h
          exact .inl h.symm
        · simp only [printFormat, printLiteral, hd, flatMap_cons, if_false,
            cons_append, nil_append, List.head?_cons, Option.some.injEq] at h
          subst h
          exact .inr ⟨s, segs, rfl⟩
    | column name =>
      left
      simp only [printFormat] at h
      split at h
      all_goals
        simp only [cons_append, List.head?_cons, Option.some.injEq] at h
        exact h.symm

theorem simpleName_cons {name : Text} (h : simpleName name = true) :
    ∃ c cs, name = c :: cs ∧ isNameStart c = true ∧ ∀ d ∈ c :: cs, isNameChar d = true := by
  cases name with
  | nil => cases h
  | cons c cs =>
    simp only [simpleName, Bool.and_eq_true, all_eq_true] at h
    refine ⟨c, cs, rfl, h.1, fun d hd => ?_⟩
    rcases mem_cons.mp hd with rfl | hd
    · exact isNameStart_isNameChar h.1
    · exact h.2 d hd

/-- A name takes all its characters and stops where the text after it does not continue it. -/
theorem takeWhile_name {name rest : Text} (hn : ∀ d ∈ name, isNameChar d = true)
    (hr : ∀ d, rest.head? = some d → isNameChar d = false) :
    (name ++ rest).takeWhile isNameChar = name ∧ (name ++ rest).dropWhile isNameChar = rest := by
  have h1 : rest.takeWhile isNameChar = [] ∧ rest.dropWhile isNameChar = rest := by
    cases rest with
    | nil => exact ⟨rfl, rfl⟩
    | cons d rest => simp [hr d rfl]
  constructor
  · rw [takeWhile_append_of_pos hn, h1.1, append_nil]
  · rw [dropWhile_append_of_pos hn, h1.2]

theorem reads_printFormat : ∀ {segs : List FormatSeg},
    (∀ seg ∈ segs, seg ≠ .literal [] ∧ seg ≠ .column []) → segs.IsChain MayFollow →
    Reads (printFormat segs) (toksOf segs)
  | [], _, _ => .nil
  | .literal s :: segs, hf, hc =>
    reads_printLiteral
      (reads_printFormat (fun seg h => hf seg (mem_cons_of_mem _ h)) hc.tail) s
  | .column name :: segs, hf, hc => by
    have hf' : ∀ seg ∈ segs, seg ≠ .literal [] ∧ seg ≠ .column [] :=
      fun seg h => hf seg (mem_cons_of_mem _ h)
    have ih := reads_printFormat hf' hc.tail
    have hhead : ∀ d, (printFormat segs).head? = some d →
        d = '$' ∨ ∃ s segs', segs = .literal (d :: s) :: segs' :=
      fun d hd => head_printFormat hf' hd
    rw [printFormat]
    split
    · rename_i hs
      simp only [Bool.and_eq_true, Bool.not_eq_true'] at hs
      obtain ⟨c, cs, rfl, hstart, hall⟩ := simpleName_cons hs.1
      have hstop : ∀ d, (printFormat segs).head? = some d → isNameChar d = false := by
        intro d hd
        rcases hhead d hd with rfl | ⟨s, segs', rfl⟩
        · decide
        · exact hs.2
      obtain ⟨h1, h2⟩ := takeWhile_name hall hstop
      have hread : Reads ('$' :: c :: (cs ++ printFormat segs))
          (.col ((c :: (cs ++ printFormat segs)).takeWhile isNameChar) :: toksOf segs) :=
        .simple hstart (by rw [← cons_append, h2]; exact ih)
      rw [← cons_append, h1] at hread
      exact hread
    · rename_i hs
      refine .braced (braced_printBraced ?_ name) ?_ ih
      · intro hbrace
        rcases hhead '}' hbrace with h | ⟨s, segs', rfl⟩
        · cases h
        · -- a simple name is printed without braces here, and no other name may come before
          have hfollow : simpleName name = true ∨ '}' ≠ '}' := (isChain_cons_cons.mp hc).1
          rcases hfollow with h | h
          · exact hs (by rw [h]; rfl)
          · exact h rfl
      · intro e
        subst e
        exact (hf _ mem_cons_self).2 rfl

/-! ## 4. Readings as segments -/

/-- The segments of a reading, from its end. -/
def group : List Tok → List FormatSeg
  | [] => []
  | .lit c :: ss =>
    match group ss with
    | .literal s :: segs => .literal (c :: s) :: segs
    | segs => .literal [c] :: segs
  | .col name :: ss => .column name :: group ss

/-- Literal text in front of segments joins the literal they start with. -/
def joinLit (lit : Text) (segs : List FormatSeg) : List FormatSeg :=
  if lit = [] then segs
  else match segs with
    | .literal s :: segs => .literal (lit ++ s) :: segs
    | segs => .literal lit :: segs

theorem joinLit_group (lit : Text) (c : Char) (ss : List Tok) :
    joinLit (lit ++ [c]) (group ss) = joinLit lit (group (.lit c :: ss)) := by
  have hne : lit ++ [c] ≠ [] := by simp
  rw [group]
  cases hg : group ss with
  | nil => by_cases h : lit = [] <;> simp [joinLit, h]
  | cons seg segs =>
    cases seg with
    | literal | column => by_cases h : lit = [] <;> simp [joinLit, h]

theorem segsOf_eq : ∀ (ss : List Tok) (segs : List FormatSeg) (lit : Text),
    segsOf segs lit ss = segs ++ joinLit lit (group ss)
  | [], segs, lit => by
    by_cases h : lit = [] <;> simp [segsOf, flushLit, joinLit, group, h]
  | .lit c :: ss, segs, lit => by
    show segsOf segs (lit ++ [c]) ss = _
    rw [segsOf_eq ss segs (lit ++ [c]), joinLit_group]
  | .col name :: ss, segs, lit => by
    show segsOf (pushColumn segs lit name) [] ss = _
    rw [segsOf_eq ss (pushColumn segs lit name) []]
    by_cases h : lit = [] <;> simp [pushColumn, joinLit, group, h]

/-- A segment list in which no two literals meet is the grouping of its characters. -/
theorem group_toksOf : ∀ {segs : List FormatSeg},
    (∀ seg ∈ segs, seg ≠ .literal [] ∧ seg ≠ .column []) → segs.IsChain MayFollow →
    group (toksOf segs) = segs
  | [], _, _ => rfl
  | .column name :: segs, hf, hc => by
    rw [toksOf, group,
      group_toksOf (fun seg h => hf seg (mem_cons_of_mem _ h)) hc.tail]
  | .literal s :: segs, hf, hc => by
    have ih := group_toksOf (fun seg h => hf seg (mem_cons_of_mem _ h)) hc.tail
    have hne : s ≠ [] := fun e => (hf _ mem_cons_self).1 (by rw [e])
    have hjoin : ∀ (lit : Text) (ss : List Tok),
        group (lit.map .lit ++ ss) = joinLit lit (group ss) := by
      intro lit
      induction lit using List.reverseRecOn with
      | nil => intro ss; simp [joinLit]
      | append_singleton lit c ihl =>
        intro ss
        rw [joinLit_group, ← ihl]
        simp
    rw [toksOf, hjoin, ih]
    cases segs with
    | nil => simp [joinLit, hne]
    | cons seg segs =>
      cases seg with
      | literal s' => exact ((isChain_cons_cons.mp hc).1).elim
      | column n => simp [joinLit, hne]

/-! ## 5. What is parsed is in normal form -/

/-- The literal a reading starts with starts with the text's first character, or is a dollar
    sign. -/
theorem head_of_group (h : Reads t ss) {c : Char} {s : Text}
    (hg : group ss = .literal (c :: s) :: segs) : c = '$' ∨ t.head? = some c := by
  have hfirst : ∀ d ss', group (.lit d :: ss') = .literal (c :: s) :: segs → d = c := by
    intro d ss' e
    rw [group] at e
    split at e <;> simp_all
  cases h with
  | nil => cases hg
  | char hc hr =>
    right
    rw [hfirst _ _ hg]
    rfl
  | dollar hr => exact .inl (hfirst _ _ hg).symm
  | simple | braced => cases hg

theorem filled_group (h : Reads t ss) :
    ∀ seg ∈ group ss, seg ≠ .literal [] ∧ seg ≠ .column [] := by
  have hlit : ∀ c ss, (∀ seg ∈ group ss, seg ≠ .literal [] ∧ seg ≠ .column []) →
      ∀ seg ∈ group (.lit c :: ss), seg ≠ .literal [] ∧ seg ≠ .column [] := by
    intro c ss ih seg hseg
    rw [group] at hseg
    split at hseg
    all_goals
      rename_i e
      simp only [mem_cons] at hseg
      rcases hseg with rfl | hseg
      · simp
    · exact ih seg (by rw [e]; exact mem_cons_of_mem _ hseg)
    · exact ih seg hseg
  induction h with
  | nil => intro seg hseg; cases hseg
  | char _ _ ih | dollar _ ih => exact hlit _ _ ih
  | @simple c cs ss hs hr ih =>
    intro seg hseg
    rcases mem_cons.mp hseg with rfl | hseg
    · simp [isNameStart_isNameChar hs]
    · exact ih seg hseg
  | braced _ hn _ ih =>
    intro seg hseg
    rcases mem_cons.mp hseg with rfl | hseg
    · simpa using hn
    · exact ih seg hseg

theorem adjacent_group (h : Reads t ss) :
    (group ss).IsChain MayFollow := by
  -- a character more leaves the literal it joins with the same neighbour
  have hlit : ∀ c ss, (group ss).IsChain MayFollow → (group (.lit c :: ss)).IsChain MayFollow := by
    intro c ss ih
    rw [group]
    cases hg : group ss with
    | nil => exact List.IsChain.singleton _
    | cons seg segs =>
      rw [hg] at ih
      cases seg with
      | literal s =>
        cases segs with
        | nil => exact List.IsChain.singleton _
        | cons seg' segs =>
          obtain ⟨h1, h2⟩ := isChain_cons_cons.mp ih
          refine isChain_cons_cons.mpr ⟨?_, h2⟩
          cases seg' with
          | literal _ => exact h1
          | column _ => trivial
      | column n => exact isChain_cons_cons.mpr ⟨trivial, ih⟩
  have hcol : ∀ name ss, (group ss).IsChain MayFollow →
      (∀ c s segs, group ss = .literal (c :: s) :: segs → simpleName name = true ∨ c ≠ '}') →
      (group (.col name :: ss)).IsChain MayFollow := by
    intro name ss ih hnext
    rw [group]
    cases hg : group ss with
    | nil => exact List.IsChain.singleton _
    | cons seg segs =>
      rw [hg] at ih
      refine isChain_cons_cons.mpr ⟨?_, ih⟩
      match seg with
      | .literal [] => trivial
      | .literal (c :: s) => exact hnext c s segs hg
      | .column _ => trivial
  induction h with
  | nil => exact .nil
  | char _ _ ih | dollar _ ih => exact hlit _ _ ih
  | @simple c cs ss hs hr ih =>
    refine hcol _ _ ih fun _ _ _ _ => .inl ?_
    rw [takeWhile_cons, if_pos (isNameStart_isNameChar hs), simpleName, hs, Bool.true_and]
    exact all_takeWhile
  | @braced cs name rest ss hb hn hr ih =>
    refine hcol _ _ ih fun c s segs hg => .inr ?_
    rintro rfl
    have hrest : ∀ {cs name rest : Text}, Braced cs name rest → rest.head? ≠ some '}' := by
      intro cs name rest hb
      induction hb with
      | close h => exact h
      | brace _ ih | char _ _ ih => exact ih
    rcases head_of_group hr hg with h | h
    · cases h
    · exact hrest hb h

theorem normalForm_of_parseFormat (h : parseFormat t = .ok segs) : NormalForm segs := by
  obtain ⟨hne, _, ss, hr, hcard, rfl⟩ := parseFormat_ok_iff.mp h
  have hseg : segsOf [] [] ss = group ss := segsOf_eq ss [] []
  refine ⟨?_, hseg ▸ filled_group hr, hseg ▸ adjacent_group hr, ?_⟩
  · rw [hseg]
    cases hr with
    | nil => exact absurd rfl hne
    | char | dollar => rw [group]; split <;> simp
    | simple | braced => simp [group]
  · rw [formatReferencedColumns_eq, segCols_segsOf, length_firsts]
    exact hcard

/-- **`parse_format` is the documented grammar**: it parses every normal form from its print, all it
    returns is in normal form, and so what it parsed is parsed again from its print. -/
theorem parseFormat_printFormat :
    (∀ segs, NormalForm segs → byteLen (printFormat segs) ≤ formatMaxBytes →
      parseFormat (printFormat segs) = .ok segs) ∧
    (∀ t segs, parseFormat t = .ok segs → NormalForm segs) ∧
    (∀ t segs, parseFormat t = .ok segs → byteLen (printFormat segs) ≤ formatMaxBytes →
      parseFormat (printFormat segs) = parseFormat t) := by
  have hprint : ∀ segs, NormalForm segs → byteLen (printFormat segs) ≤ formatMaxBytes →
      parseFormat (printFormat segs) = .ok segs := by
    intro segs hn hlen
    have hr := reads_printFormat hn.filled hn.adjacent
    have hg := group_toksOf hn.filled hn.adjacent
    refine parseFormat_ok_iff.mpr ⟨fun e => ?_, hlen, toksOf segs, hr, ?_, ?_⟩
    · rw [e] at hr
      generalize toksOf segs = ss at hr hg
      cases hr
      exact hn.nonempty hg.symm
    · have := hn.refs
      rwa [formatReferencedColumns_eq, length_firsts, ← colsOf_toksOf] at this
    · rw [segsOf_eq, hg]
      rfl
  refine ⟨hprint, fun t segs h => normalForm_of_parseFormat h, fun t segs h hlen => ?_⟩
  rw [hprint segs (normalForm_of_parseFormat h) hlen, h]

/-- A name that needs braces, and one that the text after it would continue. -/
theorem bracedNames_reparse :
    parseFormat (printFormat [.column ['a', '}'], .literal ['$', ' '], .column ['b'],
      .literal ['c']]) =
      .ok [.column ['a', '}'], .literal ['$', ' '], .column ['b'], .literal ['c']] :=
  parseFormat_printFormat.1 _
    ⟨by decide, by decide,
      .cons_cons (.inr (by decide)) (.cons_cons trivial (.cons_cons (.inl rfl) (.singleton _))),
      by decide⟩ (by decide)

end Postvec
