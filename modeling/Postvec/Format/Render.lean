import Postvec.Format.Print
import Postvec.Format.Refs

/-!
# Format templates: the SQL that renders them

The four functions that turn a stored template into SQL text: `format_expr` and `chunk_format_expr`
for the rendered document, `format_len_expr` and `chunk_format_len_expr` for its length in bytes. A
stored template that does not parse is a panic of the source; here it is the parse error.

The texts are those of expression trees (`SqlText`, `SqlNum`), whose values follow SQL: `||` and `+`
are NULL when an operand is, and a `CASE` without `ELSE` is NULL when its condition is not true. The
database is taken to be UTF-8, so that `octet_length` is `byteLen`.

Result: `lengthProbes_exact`, each length expression has the length of the render expression as its
value, on every row.
-/

namespace Postvec

open List

/-! ## 1. Quoting -/

/-- A fixed part of a statement's text. -/
@[irreducible] def sql (s : String) : Text := s.toList

theorem sql_eq (s : String) : sql s = s.toList := by
  unfold sql
  rfl

/-- `quote_ident`: every double quote doubled. -/
def quoteIdent (s : Text) : Text :=
  '"' :: (s.flatMap fun c => if c = '"' then ['"', '"'] else [c]) ++ ['"']

/-- `quote_literal_estring`: backslashes and apostrophes escaped with a backslash. -/
def quoteLiteralEstring (s : Text) : Text :=
  'E' :: '\'' :: (s.flatMap fun c =>
    if c = '\\' then ['\\', '\\'] else if c = '\'' then ['\\', '\''] else [c]) ++ ['\'']

/-- The alias in front of a column, with its dot. -/
def qualifier (rel : Text) : Text := if rel = [] then [] else rel ++ ['.']

/-! ## 2. The four expressions -/

section Expr

variable (e : RegistryEntry)

/-- `COALESCE(alias."col"::text, '')` -/
def columnTerm (rel c : Text) : Text :=
  sql "COALESCE(" ++ qualifier rel ++ quoteIdent c ++ sql "::text, '')"

/-- `CASE WHEN alias."source" IS NOT NULL THEN ... END` -/
def caseAnchor (rel source body : Text) : Text :=
  sql "CASE WHEN " ++ qualifier rel ++ quoteIdent source ++ sql " IS NOT NULL THEN " ++
    body ++ sql " END"

/-- `format_expr`. -/
def formatExpr (rel : Text) : Except FormatError Text :=
  match e.format with
  | none => .ok (qualifier rel ++ quoteIdent e.sourceColumn ++ sql "::text")
  | some template =>
    match parseFormat template with
    | .error err => .error err
    | .ok segs =>
      .ok (caseAnchor rel e.sourceColumn ((sql " || ").intercalate (segs.map fun
        | .literal s => quoteLiteralEstring s
        | .column c => columnTerm rel c)))

/-- `chunk_format_expr`. -/
def chunkFormatExpr (sourceAlias chunkAlias : Text) : Except FormatError Text :=
  let chunk := chunkAlias ++ sql ".chunk_text"
  match e.format with
  | none => .ok chunk
  | some template =>
    match parseFormat template with
    | .error err => .error err
    | .ok segs =>
      .ok (caseAnchor sourceAlias e.sourceColumn ((sql " || ").intercalate (segs.map fun
        | .literal s => quoteLiteralEstring s
        | .column c => if c = chunkName then chunk else columnTerm sourceAlias c)))

/-- `COALESCE(octet_length(alias."col"::text)::bigint, 0)` -/
def lengthTerm (rel c : Text) : Text :=
  sql "COALESCE(octet_length(" ++ qualifier rel ++ quoteIdent c ++
    sql "::text)::bigint, 0)"

/-- The sum of the literals' sizes and the other segments' terms, in one pass over the segments. -/
def lengthSum (term : Text → Text) (segs : List FormatSeg) : Text :=
  let (literalBytes, terms) := segs.foldl (fun (acc : Nat × List Text) seg => match seg with
    | .literal s => (acc.1 + byteLen s, acc.2)
    | .column c => (acc.1, acc.2 ++ [term c])) (0, [])
  terms.foldl (fun sum t => sum ++ sql " + " ++ t)
    ((Nat.toDigits 10 literalBytes) ++ sql "::bigint")

/-- `format_len_expr`. -/
def formatLenExpr (rel : Text) : Except FormatError Text :=
  match e.format with
  | none =>
    .ok (sql "octet_length(" ++ qualifier rel ++ quoteIdent e.sourceColumn ++
      sql "::text)::bigint")
  | some template =>
    match parseFormat template with
    | .error err => .error err
    | .ok segs => .ok (caseAnchor rel e.sourceColumn (lengthSum (lengthTerm rel) segs))

/-- `chunk_format_len_expr`. -/
def chunkFormatLenExpr (sourceAlias chunkAlias : Text) : Except FormatError Text :=
  let chunkLen := sql "octet_length(" ++ chunkAlias ++ sql ".chunk_text)::bigint"
  match e.format with
  | none => .ok chunkLen
  | some template =>
    match parseFormat template with
    | .error err => .error err
    | .ok segs =>
      .ok (caseAnchor sourceAlias e.sourceColumn (lengthSum
        (fun c => if c = chunkName then chunkLen else lengthTerm sourceAlias c) segs))

end Expr

/-! ## 3. Expression trees -/

/-- Text-valued expressions. -/
inductive SqlText where
  | column (rel name : Text)
  | chunkText (rel : Text)
  | estring (s : Text)
  | orEmpty (e : SqlText)
  | concat (a b : SqlText)
  | ifPresent (rel source : Text) (e : SqlText)

/-- Expressions of type `bigint`. -/
inductive SqlNum where
  | octetLength (e : SqlText)
  | bigint (n : Nat)
  | orZero (e : SqlNum)
  | add (a b : SqlNum)
  | ifPresent (rel source : Text) (e : SqlNum)

def SqlText.toSql : SqlText → Text
  | .column rel name => qualifier rel ++ quoteIdent name ++ sql "::text"
  | .chunkText rel => rel ++ sql ".chunk_text"
  | .estring s => quoteLiteralEstring s
  | .orEmpty e => sql "COALESCE(" ++ e.toSql ++ sql ", '')"
  | .concat a b => a.toSql ++ sql " || " ++ b.toSql
  | .ifPresent rel source e => caseAnchor rel source e.toSql

def SqlNum.toSql : SqlNum → Text
  | .octetLength e => sql "octet_length(" ++ e.toSql ++ sql ")::bigint"
  | .bigint n => Nat.toDigits 10 n ++ sql "::bigint"
  | .orZero e => sql "COALESCE(" ++ e.toSql ++ sql ", 0)"
  | .add a b => a.toSql ++ sql " + " ++ b.toSql
  | .ifPresent rel source e => caseAnchor rel source e.toSql

/-- The rows an expression is evaluated on: for each alias a row of the table, a column as its text
    or NULL, and a row of the destination table, whose `chunk_text` is not NULL. -/
structure SqlRow where
  column : Text → Text → Option Text
  chunkText : Text → Text

def SqlText.eval (r : SqlRow) : SqlText → Option Text
  | .column rel name => r.column rel name
  | .chunkText rel => some (r.chunkText rel)
  | .estring s => some s
  | .orEmpty e => (e.eval r).or (some [])
  | .concat a b => (a.eval r).bind fun x => (b.eval r).map fun y => x ++ y
  | .ifPresent rel source e => if (r.column rel source).isSome then e.eval r else none

def SqlNum.eval (r : SqlRow) : SqlNum → Option Nat
  | .octetLength e => (e.eval r).map byteLen
  | .bigint n => some n
  | .orZero e => (e.eval r).or (some 0)
  | .add a b => (a.eval r).bind fun x => (b.eval r).map fun y => x + y
  | .ifPresent rel source e => if (r.column rel source).isSome then e.eval r else none

/-! ## 4. The trees of the four expressions -/

/-- A segment in a render expression; `column` says what a reference stands for. -/
def segText (column : Text → SqlText) : FormatSeg → SqlText
  | .literal s => .estring s
  | .column c => column c

/-- The segments, concatenated. -/
def renderTree (column : Text → SqlText) : List FormatSeg → SqlText
  | [] => .estring []
  | seg :: segs => (segs.map (segText column)).foldl .concat (segText column seg)

/-- The bytes of the literals. -/
def literalBytes : List FormatSeg → Nat
  | [] => 0
  | .literal s :: segs => byteLen s + literalBytes segs
  | .column _ :: segs => literalBytes segs

/-- The terms of the references, added to the bytes of the literals. -/
def lengthTree (column : Text → SqlNum) (segs : List FormatSeg) : SqlNum :=
  ((segCols segs).map column).foldl .add (.bigint (literalBytes segs))

/-- A reference in column mode. -/
def plainColumn (rel c : Text) : SqlText := .orEmpty (.column rel c)

def plainLength (rel c : Text) : SqlNum := .orZero (.octetLength (.column rel c))

/-- A reference in chunk mode: `$chunk` is the chunk's text. -/
def chunkColumn (sourceAlias chunkAlias c : Text) : SqlText :=
  if c = chunkName then .chunkText chunkAlias else plainColumn sourceAlias c

def chunkLength (sourceAlias chunkAlias c : Text) : SqlNum :=
  if c = chunkName then .octetLength (.chunkText chunkAlias) else plainLength sourceAlias c

section Trees

variable (e : RegistryEntry)

def formatTree (rel : Text) : Option (List FormatSeg) → SqlText
  | none => .column rel e.sourceColumn
  | some segs => .ifPresent rel e.sourceColumn (renderTree (plainColumn rel) segs)

def formatLenTree (rel : Text) : Option (List FormatSeg) → SqlNum
  | none => .octetLength (.column rel e.sourceColumn)
  | some segs => .ifPresent rel e.sourceColumn (lengthTree (plainLength rel) segs)

def chunkFormatTree (sourceAlias chunkAlias : Text) : Option (List FormatSeg) → SqlText
  | none => .chunkText chunkAlias
  | some segs =>
    .ifPresent sourceAlias e.sourceColumn (renderTree (chunkColumn sourceAlias chunkAlias) segs)

def chunkFormatLenTree (sourceAlias chunkAlias : Text) : Option (List FormatSeg) → SqlNum
  | none => .octetLength (.chunkText chunkAlias)
  | some segs =>
    .ifPresent sourceAlias e.sourceColumn (lengthTree (chunkLength sourceAlias chunkAlias) segs)

end Trees

/-- The entry's template has been parsed: there is none, or these are its segments. -/
def Parsed (e : RegistryEntry) : Option (List FormatSeg) → Prop
  | none => e.format = none
  | some segs => ∃ t, e.format = some t ∧ parseFormat t = .ok segs

/-! ## 5. The texts are those of the trees -/

theorem intercalate_cons (sep x : Text) : ∀ xs : List Text,
    sep.intercalate (x :: xs) = x ++ xs.flatMap fun y => sep ++ y
  | [] => by simp [List.intercalate]
  | y :: ys => by
    rw [List.intercalate_cons_cons, intercalate_cons sep y ys, List.flatMap_cons]
    simp only [List.append_assoc]

theorem toSql_foldl_concat : ∀ (ps : List SqlText) (a : SqlText),
    (ps.foldl .concat a).toSql = a.toSql ++ ps.flatMap fun p => sql " || " ++ p.toSql
  | [], a => by simp
  | p :: ps, a => by
    rw [List.foldl_cons, toSql_foldl_concat ps, List.flatMap_cons, SqlText.toSql]
    simp only [List.append_assoc]

theorem toSql_foldl_add : ∀ (ps : List SqlNum) (a : SqlNum),
    (ps.foldl .add a).toSql =
      (ps.map SqlNum.toSql).foldl (fun sum t => sum ++ sql " + " ++ t) a.toSql
  | [], _ => rfl
  | p :: ps, a => by
    rw [List.foldl_cons, toSql_foldl_add ps, List.map_cons, List.foldl_cons]
    rfl

/-- The concatenation of the segments, as text. -/
theorem toSql_renderTree {column : Text → SqlText} {part : FormatSeg → Text}
    (h : ∀ seg, part seg = (segText column seg).toSql) {segs : List FormatSeg}
    (hne : segs ≠ []) :
    (renderTree column segs).toSql = (sql " || ").intercalate (segs.map part) := by
  cases segs with
  | nil => exact absurd rfl hne
  | cons seg segs =>
    rw [renderTree, toSql_foldl_concat, map_cons, intercalate_cons, h seg, flatMap_map,
      flatMap_map]
    simp only [h]

theorem foldl_lengthSum (term : Text → Text) : ∀ (segs : List FormatSeg) (n : Nat)
    (ts : List Text),
    segs.foldl (fun (acc : Nat × List Text) seg => match seg with
      | .literal s => (acc.1 + byteLen s, acc.2)
      | .column c => (acc.1, acc.2 ++ [term c])) (n, ts) =
      (n + literalBytes segs, ts ++ (segCols segs).map term)
  | [], n, ts => by simp [literalBytes, segCols]
  | .literal s :: segs, n, ts => by
    rw [foldl_cons, foldl_lengthSum term segs, literalBytes, segCols, Nat.add_assoc]
  | .column c :: segs, n, ts => by
    rw [foldl_cons, foldl_lengthSum term segs, literalBytes, segCols, map_cons,
      append_assoc]
    rfl

theorem toSql_lengthTree {column : Text → SqlNum} {term : Text → Text}
    (h : ∀ c, term c = (column c).toSql) (segs : List FormatSeg) :
    (lengthTree column segs).toSql = lengthSum term segs := by
  rw [lengthTree, toSql_foldl_add, lengthSum, foldl_lengthSum, Nat.zero_add, nil_append,
    map_map]
  simp only [SqlNum.toSql]
  congr 1
  exact map_congr_left fun c _ => (h c).symm

theorem columnTerm_eq (rel c : Text) : columnTerm rel c = (plainColumn rel c).toSql := by
  simp [columnTerm, plainColumn, SqlText.toSql, sql_eq]

theorem lengthTerm_eq (rel c : Text) : lengthTerm rel c = (plainLength rel c).toSql := by
  simp [lengthTerm, plainLength, SqlNum.toSql, SqlText.toSql, sql_eq]

section Texts

variable {e : RegistryEntry} {p : Option (List FormatSeg)}

theorem formatExpr_eq (hp : Parsed e p) (rel : Text) :
    formatExpr e rel = .ok (formatTree e rel p).toSql := by
  unfold formatExpr
  cases p with
  | none =>
    rw [show e.format = none from hp]
    rfl
  | some segs =>
    obtain ⟨t, ht, hs⟩ := hp
    have hne := (normalForm_of_parseFormat hs).nonempty
    simp only [ht, hs, formatTree, SqlText.toSql]
    rw [toSql_renderTree (fun seg => ?_) hne]
    cases seg with
    | literal s => rfl
    | column c => exact columnTerm_eq rel c

theorem chunkFormatExpr_eq (hp : Parsed e p) (sourceAlias chunkAlias : Text) :
    chunkFormatExpr e sourceAlias chunkAlias =
      .ok (chunkFormatTree e sourceAlias chunkAlias p).toSql := by
  unfold chunkFormatExpr
  cases p with
  | none =>
    rw [show e.format = none from hp]
    rfl
  | some segs =>
    obtain ⟨t, ht, hs⟩ := hp
    have hne := (normalForm_of_parseFormat hs).nonempty
    simp only [ht, hs, chunkFormatTree, SqlText.toSql]
    rw [toSql_renderTree (fun seg => ?_) hne]
    cases seg with
    | literal s => rfl
    | column c =>
      simp only [segText, chunkColumn]
      split
      · rfl
      · exact columnTerm_eq sourceAlias c

theorem formatLenExpr_eq (hp : Parsed e p) (rel : Text) :
    formatLenExpr e rel = .ok (formatLenTree e rel p).toSql := by
  unfold formatLenExpr
  cases p with
  | none =>
    rw [show e.format = none from hp]
    simp [formatLenTree, SqlNum.toSql, SqlText.toSql, sql_eq]
  | some segs =>
    obtain ⟨t, ht, hs⟩ := hp
    simp only [ht, hs, formatLenTree, SqlNum.toSql]
    rw [toSql_lengthTree (lengthTerm_eq rel)]

theorem chunkFormatLenExpr_eq (hp : Parsed e p) (sourceAlias chunkAlias : Text) :
    chunkFormatLenExpr e sourceAlias chunkAlias =
      .ok (chunkFormatLenTree e sourceAlias chunkAlias p).toSql := by
  unfold chunkFormatLenExpr
  cases p with
  | none =>
    rw [show e.format = none from hp]
    simp [chunkFormatLenTree, SqlNum.toSql, SqlText.toSql, sql_eq]
  | some segs =>
    obtain ⟨t, ht, hs⟩ := hp
    simp only [ht, hs, chunkFormatLenTree, SqlNum.toSql]
    rw [toSql_lengthTree fun c => ?_]
    simp only [chunkLength]
    split
    · simp [SqlNum.toSql, SqlText.toSql, sql_eq]
    · exact lengthTerm_eq sourceAlias c

end Texts

/-! ## 6. Their values -/

theorem byteLen_append (a b : Text) : byteLen (a ++ b) = byteLen a + byteLen b := by
  simp [byteLen]

/-- What a segment is worth when every reference has a value. -/
def segValue (val : Text → Text) : FormatSeg → Text
  | .literal s => s
  | .column c => val c

section Values

variable {r : SqlRow} {val : Text → Text}

theorem eval_foldl_concat {column : Text → SqlText} (h : ∀ c, (column c).eval r = some (val c)) :
    ∀ (segs : List FormatSeg) {a : SqlText} {x : Text}, a.eval r = some x →
      ((segs.map (segText column)).foldl .concat a).eval r =
        some (x ++ segs.flatMap (segValue val))
  | [], a, x, ha => by simpa using ha
  | seg :: segs, a, x, ha => by
    have hseg : (segText column seg).eval r = some (segValue val seg) := by
      cases seg with
      | literal s => rfl
      | column c => exact h c
    have hcat : (SqlText.concat a (segText column seg)).eval r =
        some (x ++ segValue val seg) := by
      simp [SqlText.eval, ha, hseg]
    rw [map_cons, foldl_cons, eval_foldl_concat h segs hcat, flatMap_cons,
      append_assoc]

theorem eval_renderTree {column : Text → SqlText} (h : ∀ c, (column c).eval r = some (val c))
    (segs : List FormatSeg) :
    (renderTree column segs).eval r = some (segs.flatMap (segValue val)) := by
  cases segs with
  | nil => rfl
  | cons seg segs =>
    have hseg : (segText column seg).eval r = some (segValue val seg) := by
      cases seg with
      | literal s => rfl
      | column c => exact h c
    rw [renderTree, eval_foldl_concat h segs hseg, flatMap_cons]

theorem eval_foldl_add {column : Text → SqlNum}
    (h : ∀ c, (column c).eval r = some (byteLen (val c))) : ∀ (cs : List Text) {a : SqlNum}
    {n : Nat}, a.eval r = some n →
      ((cs.map column).foldl .add a).eval r = some (n + (cs.map fun c => byteLen (val c)).sum)
  | [], a, n, ha => by simpa using ha
  | c :: cs, a, n, ha => by
    have hadd : (SqlNum.add a (column c)).eval r = some (n + byteLen (val c)) := by
      simp [SqlNum.eval, ha, h c]
    rw [map_cons, foldl_cons, eval_foldl_add h cs hadd, map_cons, sum_cons,
      Nat.add_assoc]

/-- The length of a concatenation is the sum of the lengths of its parts, the literals' first. -/
theorem byteLen_segments : ∀ segs : List FormatSeg,
    byteLen (segs.flatMap (segValue val)) =
      literalBytes segs + ((segCols segs).map fun c => byteLen (val c)).sum
  | [] => rfl
  | .literal s :: segs => by
    have ih := byteLen_segments segs
    rw [flatMap_cons, byteLen_append, ih, literalBytes, segCols]
    show byteLen s + _ = _
    omega
  | .column c :: segs => by
    have ih := byteLen_segments segs
    rw [flatMap_cons, byteLen_append, ih, literalBytes, segCols, map_cons,
      sum_cons]
    show byteLen (val c) + _ = _
    omega

theorem eval_lengthTree {column : Text → SqlNum}
    (h : ∀ c, (column c).eval r = some (byteLen (val c))) (segs : List FormatSeg) :
    (lengthTree column segs).eval r = some (byteLen (segs.flatMap (segValue val))) := by
  rw [lengthTree, eval_foldl_add h _ rfl, byteLen_segments]

theorem eval_plainColumn (rel c : Text) :
    (plainColumn rel c).eval r = some ((r.column rel c).getD []) := by
  cases h : r.column rel c <;> simp [plainColumn, SqlText.eval, h]

/-- `COALESCE` outside `octet_length` counts the same bytes as inside. -/
theorem eval_plainLength (rel c : Text) :
    (plainLength rel c).eval r = some (byteLen ((r.column rel c).getD [])) := by
  cases h : r.column rel c <;> simp [plainLength, SqlNum.eval, SqlText.eval, h, byteLen]

/-- What a reference is worth in chunk mode. -/
def chunkValue (r : SqlRow) (sourceAlias chunkAlias c : Text) : Text :=
  if c = chunkName then r.chunkText chunkAlias else (r.column sourceAlias c).getD []

theorem eval_chunkColumn (sourceAlias chunkAlias c : Text) :
    (chunkColumn sourceAlias chunkAlias c).eval r =
      some (chunkValue r sourceAlias chunkAlias c) := by
  unfold chunkColumn chunkValue
  split
  · rfl
  · exact eval_plainColumn sourceAlias c

theorem eval_chunkLength (sourceAlias chunkAlias c : Text) :
    (chunkLength sourceAlias chunkAlias c).eval r =
      some (byteLen (chunkValue r sourceAlias chunkAlias c)) := by
  unfold chunkLength chunkValue
  split
  · rfl
  · exact eval_plainLength sourceAlias c

end Values

section Render

variable {e : RegistryEntry} {p : Option (List FormatSeg)}

/-- The render expression's value is the rendered document. -/
theorem render_eq_eval (hp : Parsed e p) (r : SqlRow) (rel : Text) :
    e.render (r.column rel) none = .ok ((formatTree e rel p).eval r) := by
  cases p with
  | none =>
    rw [RegistryEntry.render, show e.format = none from hp]
    rfl
  | some segs =>
    obtain ⟨t, ht, hs⟩ := hp
    have hsegs : segs.flatMap (segValue fun c => (r.column rel c).getD []) =
        segs.flatMap (renderSeg (r.column rel) none) := by
      refine congrArg (fun f => segs.flatMap f) (funext fun seg => ?_)
      cases seg <;> rfl
    simp only [RegistryEntry.render, ht, hs, formatTree, SqlText.eval,
      eval_renderTree (eval_plainColumn rel), hsegs]

theorem chunkRender_eq_eval (hp : Parsed e p) (r : SqlRow) (sourceAlias chunkAlias : Text) :
    e.render (r.column sourceAlias) (some (r.chunkText chunkAlias)) =
      .ok ((chunkFormatTree e sourceAlias chunkAlias p).eval r) := by
  cases p with
  | none =>
    rw [RegistryEntry.render, show e.format = none from hp]
    rfl
  | some segs =>
    obtain ⟨t, ht, hs⟩ := hp
    have hsegs : segs.flatMap (segValue (chunkValue r sourceAlias chunkAlias)) =
        segs.flatMap (renderSeg (r.column sourceAlias) (some (r.chunkText chunkAlias))) := by
      refine congrArg (fun f => segs.flatMap f) (funext fun seg => ?_)
      cases seg <;> rfl
    simp only [RegistryEntry.render, ht, hs, chunkFormatTree, SqlText.eval,
      eval_renderTree (eval_chunkColumn sourceAlias chunkAlias), hsegs]

end Render

/-- **Length probes are exact**: on every row the length expression's value is the size of the
    render expression's, NULL exactly when it is, in column mode and in chunk mode. -/
theorem lengthProbes_exact (e : RegistryEntry) (p : Option (List FormatSeg)) (hp : Parsed e p)
    (r : SqlRow) (rel sourceAlias chunkAlias : Text) :
    (formatExpr e rel = .ok (formatTree e rel p).toSql ∧
      formatLenExpr e rel = .ok (formatLenTree e rel p).toSql ∧
      (formatLenTree e rel p).eval r = ((formatTree e rel p).eval r).map byteLen) ∧
    (chunkFormatExpr e sourceAlias chunkAlias =
        .ok (chunkFormatTree e sourceAlias chunkAlias p).toSql ∧
      chunkFormatLenExpr e sourceAlias chunkAlias =
        .ok (chunkFormatLenTree e sourceAlias chunkAlias p).toSql ∧
      (chunkFormatLenTree e sourceAlias chunkAlias p).eval r =
        ((chunkFormatTree e sourceAlias chunkAlias p).eval r).map byteLen) := by
  refine ⟨⟨formatExpr_eq hp rel, formatLenExpr_eq hp rel, ?_⟩,
    chunkFormatExpr_eq hp sourceAlias chunkAlias, chunkFormatLenExpr_eq hp sourceAlias chunkAlias,
    ?_⟩
  · cases p with
    | none => rfl
    | some segs =>
      simp only [formatLenTree, formatTree, SqlNum.eval, SqlText.eval,
        eval_lengthTree (eval_plainLength rel), eval_renderTree (eval_plainColumn rel)]
      cases (r.column rel e.sourceColumn).isSome <;> rfl
  · cases p with
    | none => rfl
    | some segs =>
      simp only [chunkFormatLenTree, chunkFormatTree, SqlNum.eval, SqlText.eval,
        eval_lengthTree (eval_chunkLength sourceAlias chunkAlias),
        eval_renderTree (eval_chunkColumn sourceAlias chunkAlias)]
      cases (r.column sourceAlias e.sourceColumn).isSome <;> rfl

/-- The template `$t:$b`, on a row without a `t`. -/
def titledEntry : RegistryEntry := ⟨['b'], [], [], some ['$', 't', ':', '$', 'b'], false⟩

def titledSegs : List FormatSeg := [.column ['t'], .literal [':'], .column ['b']]

def untitledRow : SqlRow := ⟨fun _ c => if c = ['b'] then some ['x', 'y'] else none, fun _ => []⟩

theorem untitledRow_length :
    (formatLenTree titledEntry ['s'] (some titledSegs)).eval untitledRow =
      ((formatTree titledEntry ['s'] (some titledSegs)).eval untitledRow).map byteLen :=
  (lengthProbes_exact titledEntry (some titledSegs) ⟨_, rfl, by decide +kernel⟩ untitledRow ['s']
    ['s'] ['c']).1.2.2

end Postvec
