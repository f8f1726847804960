import Postvec.Format.Render
import Postvec.Lib.PgScan

/-!
# Format templates: the database's scanner on the rendered SQL

A stored template is user text inside SQL that a privileged worker runs. Its literal text goes into
`E'...'` constants (`quote_literal_estring`), its column names into quoted identifiers
(`quote_ident`).

Result: `formatExpr_scans`, PostgreSQL's scanner (`Pg.scan`), under either setting of
`standard_conforming_strings`, reads exactly the tokens of the expression. It cuts a name to 63
bytes; a longer one is still one identifier, but not the one the template names
(`longName_misnamed`).
-/

namespace Postvec

open List

open Pg (Lexeme scan)

/-! ## 1. The tokens of a render expression -/

/-- A key word, read from its own text. -/
def keyword (s : String) : Lexeme := (.word (((sql s).map Char.toLower)), sql s)

def mark (c : Char) : Lexeme := (.self c, [c])

/-- `alias."name"` -/
def columnLexemes (rel name : Text) : List Lexeme :=
  (if rel = [] then [] else [(.word rel, rel), mark '.']) ++
    [(.quotedIdent (Pg.clip Pg.maxNameBytes name), quoteIdent name)]

/-- One operand of the concatenation. -/
def segLexemes (rel : Text) : FormatSeg → List Lexeme
  | .literal s => [(.string s, quoteLiteralEstring s)]
  | .column c =>
    [keyword "COALESCE", mark '('] ++ columnLexemes rel c ++
      [(.typecast, [':', ':']), keyword "text", mark ',', (.string [], ['\'', '\'']), mark ')']

/-- `t1 || ... || tn` -/
def bodyLexemes (rel : Text) : List FormatSeg → List Lexeme
  | [] => []
  | [seg] => segLexemes rel seg
  | seg :: segs => segLexemes rel seg ++ (.op ['|', '|'], ['|', '|']) :: bodyLexemes rel segs

/-- `CASE WHEN <source> IS NOT NULL THEN t1 || ... || tn END` -/
def exprLexemes (rel source : Text) (segs : List FormatSeg) : List Lexeme :=
  [keyword "CASE", keyword "WHEN"] ++ columnLexemes rel source ++
    [keyword "IS", keyword "NOT", keyword "NULL", keyword "THEN"] ++ bodyLexemes rel segs ++
    [keyword "END"]

/-- The aliases the workers pass: a lower-case identifier that needs no quotes, or none. -/
def plainAlias (rel : Text) : Bool :=
  rel.all (fun c => c.isLower || c.isDigit || c == '_') && !(rel.head?.any Char.isDigit) &&
    decide (byteLen rel ≤ Pg.maxNameBytes)

/-! ## 2. What follows a token -/

section Follow

variable {rest : Text}

theorem endsWord_of_head {c : Char} (hc : c ∈ [' ', '.', '(', ',', ')']) :
    Pg.EndsWord (c :: rest) := by
  intro d hd
  rw [List.head?_cons, Option.some.injEq] at hd
  subst hd
  simp only [mem_cons, not_mem_nil, or_false] at hc
  rcases hc with rfl | rfl | rfl | rfl | rfl <;> decide

theorem endsString_space {c : Char} (hc : c ∈ ['|', 'E']) : Pg.EndsString (' ' :: c :: rest) := by
  refine ⟨by simp, ?_⟩
  rw [Pg.gap_blank]
  rcases mem_cons.mp hc with rfl | hc
  · exact Pg.gap_other (by decide) (by decide) (by decide) rest
  · rw [mem_singleton.mp hc]
    exact Pg.gap_other (by decide) (by decide) (by decide) rest

theorem endsString_paren : Pg.EndsString (')' :: rest) :=
  ⟨by simp, Pg.gap_other (by decide) (by decide) (by decide) rest⟩

end Follow

/-! ## 3. Reading the parts -/

section Parts

variable {scs : Bool} {rest : Text} {ls : List Lexeme}

/-- A key word of the expression and the blank after it. -/
theorem scan_keyword {s : String} {c : Char} {w : Text} (hs : s.toList = c :: w)
    (hc : Pg.isIdentStart c = true) (hw : w.all Pg.isIdentCont = true)
    (hlen : byteLen ((c :: w).map Char.toLower) ≤ Pg.maxNameBytes) (hend : Pg.EndsWord rest)
    (h : scan scs rest = some ls) : scan scs (sql s ++ rest) = some (keyword s :: ls) := by
  rw [keyword, sql_eq, hs, cons_append,
    Pg.scan_word hc (all_eq_true.mp hw) hend h, Pg.clip_eq_self hlen]

theorem toLower_plain {c : Char} (h : (c.isLower || c.isDigit || c == '_') = true) :
    c.toLower = c := by
  have hup : ¬ (c.val ≥ 'A'.val ∧ c.val ≤ 'Z'.val) := by
    have hA : 'A'.val.toNat = 65 := rfl
    have hZ : 'Z'.val.toNat = 90 := rfl
    have ha : 'a'.val.toNat = 97 := rfl
    have h9 : '9'.val.toNat = 57 := rfl
    have hu : '_'.val.toNat = 95 := rfl
    unfold Char.isLower Char.isDigit at h
    simp only [Bool.or_eq_true, Bool.and_eq_true, decide_eq_true_eq,
      beq_iff_eq, ge_iff_le, UInt32.le_iff_toNat_le] at h ⊢
    rcases h with (⟨h, _⟩ | ⟨_, h⟩) | rfl
    all_goals omega
  unfold Char.toLower
  rw [dif_neg hup]

theorem isAlpha_of_isLower {c : Char} (h : c.isLower = true) : c.isAlpha = true := by
  show (c.isUpper || c.isLower) = true
  rw [h, Bool.or_true]

/-- The alias and its dot. -/
theorem scan_alias {rel : Text} (hrel : plainAlias rel = true) (hne : rel ≠ [])
    (h : scan scs ('"' :: rest) = some ls) :
    scan scs (rel ++ '.' :: '"' :: rest) = some ((.word rel, rel) :: mark '.' :: ls) := by
  simp only [plainAlias, Bool.and_eq_true, Bool.not_eq_true', all_eq_true,
    decide_eq_true_eq] at hrel
  obtain ⟨⟨hall, hhead⟩, hlen⟩ := hrel
  obtain ⟨c, w, rfl⟩ := exists_cons_of_ne_nil hne
  have hlow : (c :: w).map Char.toLower = c :: w := by
    conv_rhs => rw [← map_id (c :: w)]
    exact map_congr_left fun d hd => toLower_plain (hall d hd)
  have hdigit : c.isDigit = false := by simpa using hhead
  have hcont : ∀ d ∈ c :: w, Pg.isIdentCont d = true := by
    intro d hd
    have := hall d hd
    simp only [Bool.or_eq_true, beq_iff_eq] at this
    rcases this with (h' | h') | rfl
    · simp [Pg.isIdentCont, Pg.isIdentStart, isAlpha_of_isLower h']
    · simp [Pg.isIdentCont, h']
    · decide
  have hstart : Pg.isIdentStart c = true := by
    have := hall c mem_cons_self
    simp only [hdigit, Bool.or_false, Bool.or_eq_true, beq_iff_eq] at this
    rcases this with h' | rfl
    · simp [Pg.isIdentStart, isAlpha_of_isLower h']
    · decide
  have hdot : Pg.EndsWord ('.' :: '"' :: rest) := endsWord_of_head (by decide)
  have hword := Pg.scan_word hstart (fun d hd => hcont d (List.mem_cons_of_mem c hd)) hdot
    (Pg.scan_dot h)
  rw [hlow, Pg.clip_eq_self hlen] at hword
  exact hword

/-- A column reference with or without an alias. -/
theorem scan_column {rel name : Text} (hrel : plainAlias rel = true) (hne : name ≠ [])
    (hend : rest.head? ≠ some '"') (h : scan scs rest = some ls) :
    scan scs (qualifier rel ++ (quoteIdent name ++ rest)) =
      some (columnLexemes rel name ++ ls) := by
  have hident : scan scs (quoteIdent name ++ rest) =
      some ((.quotedIdent (Pg.clip Pg.maxNameBytes name), quoteIdent name) :: ls) := by
    have := Pg.scan_quoted hne hend h
    simp only [quoteIdent, cons_append, append_assoc, nil_append] at this ⊢
    exact this
  unfold qualifier columnLexemes
  by_cases hr : rel = []
  · simpa [hr] using hident
  · rw [if_neg hr, if_neg hr]
    have hq : quoteIdent name ++ rest =
        '"' :: ((name.flatMap fun c => if c = '"' then ['"', '"'] else [c]) ++ '"' :: rest) := by
      simp [quoteIdent]
    rw [hq] at hident ⊢
    have := scan_alias hrel hr hident
    simpa using this

/-- One operand of the concatenation, as text. -/
def partText (rel : Text) : FormatSeg → Text
  | .literal s => quoteLiteralEstring s
  | .column c => columnTerm rel c

theorem scan_literal {s : Text} (hend : Pg.EndsString rest) (h : scan scs rest = some ls) :
    scan scs (quoteLiteralEstring s ++ rest) =
      some ((.string s, quoteLiteralEstring s) :: ls) := by
  have hscan := Pg.scan_escaped (s := s) hend h
  have htext : quoteLiteralEstring s ++ rest = 'E' :: '\'' :: ((s.flatMap fun c =>
      if c = '\\' then ['\\', '\\'] else if c = '\'' then ['\\', '\''] else [c]) ++
        '\'' :: rest) := by
    simp [quoteLiteralEstring]
  rw [htext]
  exact hscan

theorem scan_columnTerm {rel c : Text} (hrel : plainAlias rel = true) (hne : c ≠ [])
    (h : scan scs rest = some ls) :
    scan scs (columnTerm rel c ++ rest) = some (segLexemes rel (.column c) ++ ls) := by
  have hopen : sql "COALESCE(" = sql "COALESCE" ++ ['('] := by simp [sql_eq]
  have hclose : sql "::text, '')" ++ rest =
      ':' :: ':' :: (sql "text" ++ ',' :: ' ' :: '\'' :: '\'' :: ')' :: rest) := by
    simp [sql_eq]
  -- from the right: each rule takes what the rest reads as
  have h1 := Pg.scan_mark (c := ')') (by decide) h
  have h2 := Pg.scan_mark (c := ',') (by decide)
    (Pg.scan_space (Pg.scan_emptyString endsString_paren h1))
  have h3 := scan_keyword (s := "text") (c := 't') (w := ['e', 'x', 't']) rfl (by decide)
    (by decide) (by decide) (endsWord_of_head (by decide)) h2
  have h4 := scan_column hrel hne (by simp) (Pg.scan_typecast h3)
  have h5 := scan_keyword (s := "COALESCE") (c := 'C') (w := ['O', 'A', 'L', 'E', 'S', 'C', 'E'])
    rfl (by decide) (by decide) (by decide) (endsWord_of_head (by decide))
    (Pg.scan_mark (c := '(') (by decide) h4)
  rw [columnTerm, hopen]
  simp only [List.append_assoc, List.cons_append, List.nil_append, hclose]
  rw [h5]
  simp [segLexemes, mark]

theorem scan_part {rel : Text} {seg : FormatSeg} (hrel : plainAlias rel = true)
    (hne : seg ≠ .column []) (hend : Pg.EndsString rest) (h : scan scs rest = some ls) :
    scan scs (partText rel seg ++ rest) = some (segLexemes rel seg ++ ls) := by
  cases seg with
  | literal s => exact scan_literal hend h
  | column c => exact scan_columnTerm hrel (fun e => hne (by rw [e])) h

/-- The concatenation, by induction on its operands. -/
theorem scan_body {rel : Text} (hrel : plainAlias rel = true) (hend : Pg.EndsString rest)
    (h : scan scs rest = some ls) : ∀ segs : List FormatSeg, segs ≠ [] →
      (∀ seg ∈ segs, seg ≠ .column []) →
      scan scs ((sql " || ").intercalate (segs.map (partText rel)) ++ rest) =
        some (bodyLexemes rel segs ++ ls)
  | [], hne, _ => absurd rfl hne
  | [seg], _, hf => by
    have := scan_part hrel (hf seg List.mem_cons_self) hend h
    simpa [bodyLexemes, List.intercalate] using this
  | seg :: seg' :: segs, _, hf => by
    have ih := scan_body hrel hend h (seg' :: segs) (by simp)
      fun x hx => hf x (List.mem_cons_of_mem seg hx)
    have hbars : Pg.EndsString (' ' :: '|' :: '|' :: ' ' ::
        ((sql " || ").intercalate ((seg' :: segs).map (partText rel)) ++ rest)) :=
      endsString_space (by decide)
    have hpart := scan_part hrel (hf seg List.mem_cons_self) hbars
      (Pg.scan_space (Pg.scan_bars (Pg.scan_space ih)))
    have hsep : sql " || " = [' ', '|', '|', ' '] := by simp [sql_eq]
    rw [List.map_cons, List.map_cons, List.intercalate_cons_cons, ← List.map_cons]
    simp only [List.append_assoc]
    rw [hsep] at hpart ⊢
    simp only [List.cons_append, List.nil_append]
    rw [hpart]
    simp [bodyLexemes]

end Parts

/-! ## 4. The expression -/

/-- The scanner on a render expression. -/
theorem scan_formatExpr {e : RegistryEntry} {segs : List FormatSeg} (hp : Parsed e (some segs))
    {rel : Text} (hrel : plainAlias rel = true) (hsource : e.sourceColumn ≠ []) (scs : Bool) :
    ∃ text, formatExpr e rel = .ok text ∧
      scan scs text = some (exprLexemes rel e.sourceColumn segs) := by
  obtain ⟨t, ht, hs⟩ := hp
  have hn := normalForm_of_parseFormat hs
  refine ⟨caseAnchor rel e.sourceColumn ((sql " || ").intercalate
    (segs.map (partText rel))), ?_, ?_⟩
  · simp only [formatExpr, ht, hs]
    refine congrArg (fun l => Except.ok (caseAnchor rel e.sourceColumn
      ((sql " || ").intercalate l))) ?_
    refine List.map_congr_left fun seg _ => ?_
    cases seg <;> rfl
  · have hcase : sql "CASE WHEN " = sql "CASE" ++ ' ' :: (sql "WHEN" ++ [' ']) := by simp [sql_eq]
    have hthen : sql " IS NOT NULL THEN " = ' ' :: (sql "IS" ++ ' ' :: (sql "NOT" ++ ' ' ::
        (sql "NULL" ++ ' ' :: (sql "THEN" ++ [' '])))) := by simp [sql_eq]
    have hlast : sql " END" = ' ' :: (sql "END" ++ []) := by simp [sql_eq]
    have hspace : ∀ rest : Text, Pg.EndsWord (' ' :: rest) :=
      fun rest => endsWord_of_head (by decide)
    have h1 : scan scs (sql "END" ++ []) = some [keyword "END"] :=
      scan_keyword (c := 'E') (w := ['N', 'D']) rfl (by decide) (by decide) (by decide)
        (fun c hc => by cases hc) Pg.scan_nil
    have hend : Pg.EndsString (' ' :: (sql "END" ++ [])) := by
      rw [sql_eq]
      exact endsString_space (by decide)
    have h2 := scan_body hrel hend (Pg.scan_space h1) segs hn.nonempty
      fun seg h => (hn.filled seg h).2
    have h3 := scan_keyword (s := "THEN") (c := 'T') (w := ['H', 'E', 'N']) rfl (by decide)
      (by decide) (by decide) (hspace _) (Pg.scan_space h2)
    have h4 := scan_keyword (s := "NULL") (c := 'N') (w := ['U', 'L', 'L']) rfl (by decide)
      (by decide) (by decide) (hspace _) (Pg.scan_space h3)
    have h5 := scan_keyword (s := "NOT") (c := 'N') (w := ['O', 'T']) rfl (by decide)
      (by decide) (by decide) (hspace _) (Pg.scan_space h4)
    have h6 := scan_keyword (s := "IS") (c := 'I') (w := ['S']) rfl (by decide)
      (by decide) (by decide) (hspace _) (Pg.scan_space h5)
    have h7 := scan_column hrel hsource (by simp) (Pg.scan_space h6)
    have h8 := scan_keyword (s := "WHEN") (c := 'W') (w := ['H', 'E', 'N']) rfl (by decide)
      (by decide) (by decide) (hspace _) (Pg.scan_space h7)
    have h9 := scan_keyword (s := "CASE") (c := 'C') (w := ['A', 'S', 'E']) rfl (by decide)
      (by decide) (by decide) (hspace _) (Pg.scan_space h8)
    rw [caseAnchor, hcase, hthen, hlast]
    simp only [List.append_assoc, List.cons_append, List.nil_append] at h9 ⊢
    rw [h9]
    simp [exprLexemes]

/-- **Templates cannot escape their SQL**: under both settings the scanner reads a render
    expression as its tokens, each with its own text. A literal segment is the value of one string
    constant, a column name one quoted identifier, and the name itself when it has at most 63
    bytes. -/
theorem formatExpr_scans (e : RegistryEntry) (segs : List FormatSeg) (hp : Parsed e (some segs))
    (rel : Text) (hrel : plainAlias rel = true) (hsource : e.sourceColumn ≠ []) (scs : Bool) :
    (∃ text, formatExpr e rel = .ok text ∧
      scan scs text = some (exprLexemes rel e.sourceColumn segs)) ∧
    ∀ name, byteLen name ≤ Pg.maxNameBytes → Pg.clip Pg.maxNameBytes name = name :=
  ⟨scan_formatExpr hp hrel hsource scs, fun _ h => Pg.clip_eq_self h⟩

/-- A template of quotes, backslashes and comment marks. -/
def hostileEntry : RegistryEntry :=
  ⟨['b'], [], [], some ['\'', '\\', '$', '{', 'a', '"', '}', '-', '-'], false⟩

def hostileSegs : List FormatSeg :=
  [.literal ['\'', '\\'], .column ['a', '"'], .literal ['-', '-']]

theorem hostileTemplate_scans : ∃ text, formatExpr hostileEntry ['t'] = .ok text ∧
    scan false text = some (exprLexemes ['t'] ['b'] hostileSegs) :=
  (formatExpr_scans hostileEntry hostileSegs ⟨_, rfl, by decide +kernel⟩ ['t'] (by decide)
    (by decide) false).1

/-- A name of 64 letters: the scanner reads a name of 63. -/
def longEntry : RegistryEntry :=
  ⟨['b'], [], [], some ('$' :: List.replicate 64 'a'), false⟩

theorem longName_misnamed :
    parseFormat ('$' :: List.replicate 64 'a') = .ok [.column (List.replicate 64 'a')] ∧
    ¬ ∃ text ls, formatExpr longEntry ['t'] = .ok text ∧ scan true text = some ls ∧
      .quotedIdent (List.replicate 64 'a') ∈ ls.map Prod.fst := by
  have hparse : parseFormat ('$' :: List.replicate 64 'a') =
      .ok [.column (List.replicate 64 'a')] := by decide +kernel
  refine ⟨hparse, ?_⟩
  rintro ⟨text, ls, htext, hscan, hmem⟩
  have hrel : plainAlias ['t'] = true := by decide
  obtain ⟨text', htext', hscan'⟩ := scan_formatExpr (e := longEntry) ⟨_, rfl, hparse⟩ hrel
    (by decide) true
  rw [htext] at htext'
  cases htext'
  rw [hscan] at hscan'
  cases hscan'
  revert hmem
  decide +kernel

end Postvec
