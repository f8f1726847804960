import Mathlib.Algebra.GroupWithZero.Nat
import Mathlib.Data.List.Basic

/-!
# The lexical structure of PostgreSQL's SQL

A scanner for SQL text, after the lexical rules of the PostgreSQL manual. An identifier is cut to
the 63 bytes a name has room for.

Two settings matter to it. `standard_conforming_strings` (`scs`) says whether a backslash escapes in
a plain string constant; it always does in an escape string `E'...'`. `backslash_quote` is taken to
permit `\'`. Unicode escapes for surrogate pairs and digit separators in numbers are left out.

`scan` returns the tokens in order, each with the characters it was read from (`Lexeme`), or `none`
where the scanner reports an error. The rules in section 3 say what one token reads, each with what
must stand after the token.
-/

namespace Pg

open List Option

abbrev Chars := List Char

/-! ## 1. Tokens and characters -/

inductive Token where
  | word (name : Chars)
  | quotedIdent (name : Chars)
  | unicodeIdent (raw : Chars)
  | string (value : Chars)
  | unicodeString (raw : Chars)
  | bitString (value : Chars)
  | hexString (value : Chars)
  | number (text : Chars)
  | param (digits : Chars)
  | typecast
  | op (text : Chars)
  | self (c : Char)
deriving DecidableEq, Repr

/-- A token and the characters it was read from. -/
abbrev Lexeme := Token × Chars

def isNewline (c : Char) : Bool := c == '\n' || c == '\r'

def isSpace (c : Char) : Bool :=
  c == ' ' || c == '\t' || isNewline c || c == '\x0b' || c == '\x0c'

def isIdentStart (c : Char) : Bool := c.isAlpha || c == '_' || 0x80 ≤ c.toNat

def isIdentCont (c : Char) : Bool := isIdentStart c || c.isDigit || c == '$'

/-- The characters operators are made of. -/
def isOpChar (c : Char) : Bool :=
  c ∈ ['~', '!', '@', '#', '^', '&', '|', '?', '+', '-', '*', '/', '%', '<', '>', '='] ||
    c.toNat == 0x60

/-- The characters that are tokens by themselves. -/
def isSelf (c : Char) : Bool :=
  c ∈ [',', '(', ')', '[', ']', '.', ';', ':', '+', '-', '*', '/', '%', '^', '<', '>', '=']

/-- Bytes of an identifier (`NAMEDATALEN - 1`). -/
def maxNameBytes : Nat := 63

/-- The longest front part of whole characters with at most `n` bytes. -/
def clip (n : Nat) : Chars → Chars
  | [] => []
  | c :: cs => if c.utf8Size ≤ n then c :: clip (n - c.utf8Size) cs else []

/-! ## 2. The scanner -/

/-- What stands between two parts of one string constant: white space and comments with a newline,
    and then a quote. Returns what follows the quote. -/
def gap (comment newline : Bool) : Chars → Option Chars
  | [] => none
  | c :: cs =>
    if comment then if isNewline c then gap false true cs else gap true newline cs
    else if c = '\'' then if newline then some cs else none
    else if isNewline c then gap false true cs
    else if isSpace c then gap false newline cs
    else if c = '-' then
      match cs with
      | '-' :: cs => gap true newline cs
      | _ => none
    else none

theorem gap_length {cs r : Chars} {comment newline : Bool} (h : gap comment newline cs = some r) :
    r.length < cs.length := by
  fun_induction gap comment newline cs
  case case4 =>
    cases h
    exact Nat.lt_succ_self _
  case case2 | case3 | case6 | case7 =>
    rename_i ih
    exact Nat.lt_succ_of_lt (ih h)
  case case8 =>
    rename_i ih
    exact Nat.lt_succ_of_lt (Nat.lt_succ_of_lt (ih h))
  all_goals cases h

theorem gap_blank {newline : Bool} (cs : Chars) :
    gap false newline (' ' :: cs) = gap false newline cs := by
  conv_lhs => unfold gap
  simp [isNewline, isSpace]

/-- No gap starts at another character. -/
theorem gap_other {c : Char} {newline : Bool} (hc : isSpace c = false) (hq : c ≠ '\'')
    (hd : c ≠ '-') (cs : Chars) : gap false newline (c :: cs) = none := by
  have hn : isNewline c = false := by
    simp only [isSpace, Bool.or_eq_false_iff] at hc
    exact hc.1.1.2
  unfold gap
  simp only [Bool.false_eq_true, if_false, hq, hn, hc, hd]

def isOctal (c : Char) : Bool := '0' ≤ c && c ≤ '7'

def isHex (c : Char) : Bool := c.isDigit || ('a' ≤ c && c ≤ 'f') || ('A' ≤ c && c ≤ 'F')

def digitValue (c : Char) : Nat :=
  if c.isDigit then c.toNat - '0'.toNat else c.toLower.toNat - 'a'.toNat + 10

def numeral (base : Nat) (ds : Chars) : Nat := ds.foldl (fun n d => base * n + digitValue d) 0

/-- A backslash escape, after the backslash: its character and what follows. -/
def escape : Chars → Option (Char × Chars)
  | [] => none
  | c :: cs =>
    if isOctal c then
      let ds := (cs.take 2).takeWhile isOctal
      some (Char.ofNat (numeral 8 (c :: ds) % 256), cs.drop ds.length)
    else if c = 'x' ∧ (cs.take 1).any isHex then
      let ds := (cs.take 2).takeWhile isHex
      some (Char.ofNat (numeral 16 ds), cs.drop ds.length)
    else if c = 'u' ∨ c = 'U' then
      let n := if c = 'u' then 4 else 8
      if (cs.take n).length = n ∧ (cs.take n).all isHex ∧ (numeral 16 (cs.take n)).isValidChar then
        some (Char.ofNat (numeral 16 (cs.take n)), cs.drop n)
      else none
    else
      let v := if c = 'b' then '\x08' else if c = 'f' then '\x0c' else if c = 'n' then '\n'
        else if c = 'r' then '\r' else if c = 't' then '\t' else if c = 'v' then '\x0b' else c
      some (v, cs)

theorem escape_length {cs r : Chars} {v : Char} (h : escape cs = some (v, r)) :
    r.length < cs.length := by
  cases cs with
  | nil => cases h
  | cons c cs =>
    simp only [escape] at h
    have hdrop : ∀ n, (cs.drop n).length < (c :: cs).length :=
      fun n => Nat.lt_succ_of_le (drop_suffix n cs).length_le
    split at h
    · cases h
      exact hdrop _
    split at h
    · cases h
      exact hdrop _
    split at h
    · generalize (if c = 'u' then 4 else 8) = n at h
      split at h
      · cases h
        exact hdrop _
      · cases h
    · cases h
      exact hdrop 0

/-- The inside of a string constant, after its opening quote: its value and what follows. -/
def stringBody (esc : Bool) (cs : Chars) : Option (Chars × Chars) :=
  match cs with
  | [] => none
  | c :: cs =>
    if c = '\'' then
      if cs.head? = some '\'' then (stringBody esc cs.tail).map fun r => ('\'' :: r.1, r.2)
      else
        match _h : gap false false cs with
        | some cs' => stringBody esc cs'
        | none => some ([], cs)
    else if esc ∧ c = '\\' then
      match _h : escape cs with
      | none => none
      | some (v, cs') => (stringBody esc cs').map fun r => (v :: r.1, r.2)
    else (stringBody esc cs).map fun r => (c :: r.1, r.2)
termination_by cs.length
decreasing_by
  · simp only [length_tail, length_cons]
    omega
  · exact Nat.lt_succ_of_lt (gap_length _h)
  · exact Nat.lt_succ_of_lt (escape_length _h)
  · simp

/-- The inside of a quoted identifier, after its opening quote. -/
def identBody : Chars → Option (Chars × Chars)
  | [] => none
  | c :: cs =>
    if c = '"' then
      match cs with
      | '"' :: cs => (identBody cs).map fun r => ('"' :: r.1, r.2)
      | _ => some ([], cs)
    else (identBody cs).map fun r => (c :: r.1, r.2)

/-- The rest after a block comment, which may hold others. -/
def blockComment : Nat → Chars → Option Chars
  | _, [] => none
  | depth, '*' :: '/' :: cs => if depth = 0 then some cs else blockComment (depth - 1) cs
  | depth, '/' :: '*' :: cs => blockComment (depth + 1) cs
  | depth, _ :: cs => blockComment depth cs

/-- The inside of a dollar-quoted constant, up to its closing delimiter. -/
def dollarBody (delim : Chars) : Chars → Option (Chars × Chars)
  | [] => none
  | c :: cs =>
    if delim.isPrefixOf (c :: cs) then some ([], (c :: cs).drop delim.length)
    else (dollarBody delim cs).map fun r => (c :: r.1, r.2)

/-- An operator: a run of operator characters, cut before a comment, and without a trailing `+` or
    `-` unless it holds a character that plain arithmetic does not use. -/
def trimOp (text : Chars) : Chars :=
  if text.any fun c => c ∈ ['~', '!', '@', '#', '^', '&', '|', '?', '%'] || c.toNat == 0x60 then
    text
  else
    let t := (text.reverse.dropWhile fun c => c == '+' || c == '-').reverse
    if t.length = 0 then text.take 1 else t

def operatorText : Chars → Chars
  | [] => []
  | '-' :: '-' :: _ => []
  | '/' :: '*' :: _ => []
  | c :: cs => if isOpChar c then c :: operatorText cs else []

/-- Digits, a fraction, an exponent. -/
def numberText (cs : Chars) : Chars :=
  let whole := cs.takeWhile Char.isDigit
  let cs := cs.drop whole.length
  let frac := match cs with
    | '.' :: cs => '.' :: cs.takeWhile Char.isDigit
    | _ => []
  let cs := cs.drop frac.length
  let exp := match cs with
    | e :: s :: cs =>
      if e = 'e' ∨ e = 'E' then
        if s = '+' ∨ s = '-' then
          if (cs.takeWhile Char.isDigit).length = 0 then []
          else e :: s :: cs.takeWhile Char.isDigit
        else e :: (s :: cs).takeWhile Char.isDigit
      else []
    | _ => []
  whole ++ frac ++ if exp.length < 2 then [] else exp

/-- A quoted identifier's token; an empty one is an error. -/
def quotedToken : Option (Chars × Chars) → Option (Option Token × Chars)
  | some (name, cs) =>
    if name = [] then none else some (some (.quotedIdent (clip maxNameBytes name)), cs)
  | none => none

def stringToken (make : Chars → Token) (r : Option (Chars × Chars)) :
    Option (Option Token × Chars) :=
  r.map fun r => (some (make r.1), r.2)

/-- The token that starts with `c`, none for white space and comments, and what follows it. -/
def token (scs : Bool) (c : Char) (cs : Chars) : Option (Option Token × Chars) :=
  let quoted := cs.head? = some '\''
  if isSpace c then some (none, cs)
  else if c = '-' ∧ cs.head? = some '-' then some (none, cs.dropWhile fun d => !isNewline d)
  else if c = '/' ∧ cs.head? = some '*' then (blockComment 0 cs.tail).map fun r => (none, r)
  else if c = '\'' then stringToken .string (stringBody (!scs) cs)
  else if (c = 'E' ∨ c = 'e') ∧ quoted then stringToken .string (stringBody true cs.tail)
  else if (c = 'B' ∨ c = 'b') ∧ quoted then stringToken .bitString (stringBody false cs.tail)
  else if (c = 'X' ∨ c = 'x') ∧ quoted then stringToken .hexString (stringBody false cs.tail)
  else if (c = 'N' ∨ c = 'n') ∧ quoted then some (some (.word "nchar".toList), cs)
  else if (c = 'U' ∨ c = 'u') ∧ cs.take 2 = ['&', '\''] then
    if scs then stringToken .unicodeString (stringBody false (cs.drop 2)) else none
  else if (c = 'U' ∨ c = 'u') ∧ cs.take 2 = ['&', '"'] then
    stringToken .unicodeIdent (identBody (cs.drop 2))
  else if c = '"' then quotedToken (identBody cs)
  else if isIdentStart c then
    let name := c :: cs.takeWhile isIdentCont
    some (some (.word (clip maxNameBytes (name.map Char.toLower))), cs.dropWhile isIdentCont)
  else if c.isDigit ∨ c = '.' ∧ (cs.head?.any Char.isDigit) then
    let text := numberText (c :: cs)
    some (some (.number text), cs.drop (text.length - 1))
  else if c = '$' then
    if cs.head?.any Char.isDigit then
      some (some (.param (cs.takeWhile Char.isDigit)), cs.dropWhile Char.isDigit)
    else
      let tag := cs.takeWhile fun d => isIdentCont d && d != '$'
      if (cs.drop tag.length).head? = some '$' ∧ ¬ tag.head?.any Char.isDigit then
        stringToken .string (dollarBody ('$' :: tag ++ ['$']) (cs.drop (tag.length + 1)))
      else none
  else if c = ':' ∧ cs.head? = some ':' then some (some .typecast, cs.tail)
  else if c = ':' ∧ cs.head? = some '=' then some (some (.op [':', '=']), cs.tail)
  else if c = '.' ∧ cs.head? = some '.' then some (some (.op ['.', '.']), cs.tail)
  else if isOpChar c then
    let text := trimOp (operatorText (c :: cs))
    some (some (if text = [c] ∧ isSelf c then .self c else .op text), cs.drop (text.length - 1))
  else if isSelf c then some (some (.self c), cs)
  else none

/-- All tokens of a text. -/
def scan (scs : Bool) (cs : Chars) : Option (List Lexeme) :=
  match cs with
  | [] => some []
  | c :: cs =>
    match token scs c cs with
    | none => none
    | some (tok, rest) =>
      if _h : rest.length ≤ cs.length then
        (scan scs rest).map fun ls =>
          match tok with
          | none => ls
          | some t => (t, (c :: cs).take (cs.length + 1 - rest.length)) :: ls
      else none
termination_by cs.length
decreasing_by simp; omega

/-! ## 3. What one token reads -/

theorem clip_eq_self : ∀ {cs : Chars} {n : Nat}, (cs.map Char.utf8Size).sum ≤ n → clip n cs = cs
  | [], _, _ => rfl
  | c :: cs, n, h => by
    rw [List.map_cons, List.sum_cons] at h
    rw [clip, if_pos (by omega), clip_eq_self (by omega)]

section Rules

variable {scs : Bool} {rest : Chars} {ls : List Lexeme}

variable {c : Char}

theorem scan_token {cs lex : Chars} {t : Token}
    (ht : token scs c cs = some (some t, rest)) (hlex : c :: cs = lex ++ rest) (hne : lex ≠ [])
    (h : scan scs rest = some ls) : scan scs (c :: cs) = some ((t, lex) :: ls) := by
  have hlen : cs.length + 1 = lex.length + rest.length := by
    have := congrArg List.length hlex
    simpa using this
  have hpos : 0 < lex.length := List.length_pos_iff.mpr hne
  have htake : (c :: cs).take (cs.length + 1 - rest.length) = lex := by
    rw [hlex, hlen, Nat.add_sub_cancel]
    exact List.take_left
  rw [scan, ht]
  simp only [dif_pos (show rest.length ≤ cs.length by omega), h, Option.map_some, htake]

theorem scan_nil : scan scs [] = some [] := by
  rw [scan]

theorem scan_space (h : scan scs rest = some ls) : scan scs (' ' :: rest) = some ls := by
  have ht : token scs ' ' rest = some (none, rest) := rfl
  rw [scan, ht]
  simp [h]

/-- Marks that are tokens whatever follows. -/
theorem scan_mark (hc : c ∈ ['(', ')', ',']) (h : scan scs rest = some ls) :
    scan scs (c :: rest) = some ((.self c, [c]) :: ls) := by
  refine scan_token ?_ rfl (by simp) h
  rcases List.mem_cons.mp hc with rfl | hc
  · rfl
  rcases List.mem_cons.mp hc with rfl | hc
  · rfl
  rw [List.mem_singleton.mp hc]
  rfl

theorem scan_dot (h : scan scs ('"' :: rest) = some ls) :
    scan scs ('.' :: '"' :: rest) = some ((.self '.', ['.']) :: ls) :=
  scan_token rfl rfl (by simp) h

theorem scan_typecast (h : scan scs rest = some ls) :
    scan scs (':' :: ':' :: rest) = some ((.typecast, [':', ':']) :: ls) :=
  scan_token rfl rfl (by simp) h

theorem scan_bars (h : scan scs (' ' :: rest) = some ls) :
    scan scs ('|' :: '|' :: ' ' :: rest) = some ((.op ['|', '|'], ['|', '|']) :: ls) :=
  scan_token rfl rfl (by simp) h

/-- What may follow a word: nothing that continues it, and no quote that would make it the start of
    a constant. -/
def EndsWord (rest : Chars) : Prop :=
  ∀ c, rest.head? = some c → isIdentCont c = false ∧ c ≠ '\'' ∧ c ≠ '&'

theorem not_isIdentCont_quote : isIdentCont '\'' = false ∧ isIdentCont '&' = false := by decide

/-- A key word or an identifier. -/
theorem scan_word {w : Chars} (hc : isIdentStart c = true)
    (hw : ∀ d ∈ w, isIdentCont d = true) (hend : EndsWord rest) (h : scan scs rest = some ls) :
    scan scs (c :: (w ++ rest)) =
      some ((.word (clip maxNameBytes ((c :: w).map Char.toLower)), c :: w) :: ls) := by
  have hstop : rest.takeWhile isIdentCont = [] ∧ rest.dropWhile isIdentCont = rest := by
    cases rest with
    | nil => exact ⟨rfl, rfl⟩
    | cons d rest => simp [(hend d rfl).1]
  have htake : (w ++ rest).takeWhile isIdentCont = w := by
    rw [List.takeWhile_append_of_pos hw, hstop.1, List.append_nil]
  have hdrop : (w ++ rest).dropWhile isIdentCont = rest := by
    rw [List.dropWhile_append_of_pos hw, hstop.2]
  -- no form of constant starts here
  have hhead : ∀ d, (w ++ rest).head? = some d → d ≠ '\'' ∧ d ≠ '&' := by
    intro d hd
    cases w with
    | nil => exact (hend d hd).2
    | cons d' w =>
      rw [List.cons_append, List.head?_cons, Option.some.injEq] at hd
      subst hd
      have hd' := hw d' List.mem_cons_self
      refine ⟨?_, ?_⟩
      · rintro rfl
        rw [not_isIdentCont_quote.1] at hd'
        cases hd'
      · rintro rfl
        rw [not_isIdentCont_quote.2] at hd'
        cases hd'
  have hq : ¬ (w ++ rest).head? = some '\'' := fun hd => (hhead _ hd).1 rfl
  have ha : ∀ x, ¬ (w ++ rest).take 2 = ['&', x] := by
    intro x hx
    cases hwr : w ++ rest with
    | nil => rw [hwr] at hx; cases hx
    | cons d t =>
      rw [hwr, List.take_succ_cons, List.cons.injEq] at hx
      exact (hhead d (by rw [hwr]; rfl)).2 hx.1
  have hcs : ∀ d, isIdentStart d = false → c ≠ d := by
    rintro d hd rfl
    rw [hc] at hd
    cases hd
  have hsp : isSpace c = false := by
    cases hs : isSpace c with
    | false => rfl
    | true =>
      simp only [isSpace, isNewline, Bool.or_eq_true, beq_iff_eq] at hs
      rcases hs with (((rfl | rfl) | rfl | rfl) | rfl) | rfl <;> exact absurd hc (by decide)
  refine scan_token ?_ (List.cons_append (a := c)).symm (by simp) h
  simp only [token, hsp, Bool.false_eq_true, if_false, hq, and_false, ha, hcs '-' (by decide),
    hcs '/' (by decide), hcs '\'' (by decide), hcs '"' (by decide), false_and, hc, if_true, htake,
    hdrop]

/-! ### Quoted identifiers -/

theorem identBody_doubled (hend : rest.head? ≠ some '"') : ∀ name : Chars,
    identBody ((name.flatMap fun c => if c = '"' then ['"', '"'] else [c]) ++ '"' :: rest) =
      some (name, rest)
  | [] => by
    cases rest with
    | nil => rfl
    | cons c rest =>
      have hc : c ≠ '"' := fun e => hend (by rw [e]; rfl)
      rw [flatMap_nil, nil_append]
      unfold identBody
      rw [if_pos rfl]
      split
      · rename_i heq
        rw [List.cons.injEq] at heq
        exact absurd heq.1 hc
      · rfl
  | c :: name => by
    have ih := identBody_doubled hend name
    by_cases hc : c = '"'
    · simp only [List.flatMap_cons, hc, if_true, List.cons_append, List.nil_append, identBody,
        ih, Option.map_some]
    · rw [List.flatMap_cons, if_neg hc, List.append_assoc, List.cons_append, List.nil_append]
      unfold identBody
      rw [if_neg hc, ih]
      rfl

/-- A name with its double quotes doubled is one quoted identifier, whatever it holds. -/
theorem scan_quoted {name : Chars} (hne : name ≠ []) (hend : rest.head? ≠ some '"')
    (h : scan scs rest = some ls) :
    scan scs ('"' :: ((name.flatMap fun c => if c = '"' then ['"', '"'] else [c]) ++ '"' :: rest)) =
      some ((.quotedIdent (clip maxNameBytes name),
        '"' :: (name.flatMap fun c => if c = '"' then ['"', '"'] else [c]) ++ ['"']) :: ls) := by
  refine scan_token ?_ (by simp) (by simp) h
  have hb := identBody_doubled hend name
  simp only [token]
  rw [hb]
  simp [isSpace, isNewline, quotedToken, hne]

/-! ### String constants -/

/-- What may follow a string constant: no quote, and no gap before one. -/
def EndsString (rest : Chars) : Prop := rest.head? ≠ some '\'' ∧ gap false false rest = none

theorem escape_other (hc : c ∈ ['\\', '\'']) (cs : Chars) :
    escape (c :: cs) = some (c, cs) := by
  rcases mem_cons.mp hc with rfl | hc
  · rfl
  · rw [mem_singleton.mp hc]
    rfl

theorem stringBody_end (esc : Bool) (hend : EndsString rest) :
    stringBody esc ('\'' :: rest) = some ([], rest) := by
  rw [stringBody]
  simp only [if_true, hend.1, if_false]
  split
  · rename_i hg
    rw [hend.2] at hg
    cases hg
  · rfl

theorem stringBody_escaped (hend : EndsString rest) : ∀ s : Chars,
    stringBody true ((s.flatMap fun c =>
      if c = '\\' then ['\\', '\\'] else if c = '\'' then ['\\', '\''] else [c]) ++ '\'' :: rest) =
      some (s, rest)
  | [] => stringBody_end true hend
  | c :: s => by
    have ih := stringBody_escaped hend s
    have hesc : ∀ d ∈ ['\\', '\''], ∀ t, stringBody true t = some (s, rest) →
        stringBody true ('\\' :: d :: t) = some (d :: s, rest) := by
      intro d hd t ht
      rw [stringBody]
      simp only [Char.reduceEq, if_false, and_self, if_true]
      split
      · rename_i he
        rw [escape_other hd] at he
        cases he
      · rename_i v cs' he
        rw [escape_other hd] at he
        cases he
        rw [ht]
        rfl
    rw [flatMap_cons]
    by_cases h1 : c = '\\'
    · subst h1
      exact hesc '\\' (by simp) _ ih
    · by_cases h2 : c = '\''
      · subst h2
        exact hesc '\'' (by simp) _ ih
      · rw [if_neg h1, if_neg h2, append_assoc, cons_append, nil_append,
          stringBody]
        simp only [h2, if_false, h1, and_false, ih, map_some]

/-- A text with its backslashes and quotes escaped is one escape string constant. -/
theorem scan_escaped {s : Chars} (hend : EndsString rest) (h : scan scs rest = some ls) :
    scan scs ('E' :: '\'' :: ((s.flatMap fun c =>
      if c = '\\' then ['\\', '\\'] else if c = '\'' then ['\\', '\''] else [c]) ++ '\'' :: rest)) =
      some ((.string s, 'E' :: '\'' :: (s.flatMap fun c =>
        if c = '\\' then ['\\', '\\'] else if c = '\'' then ['\\', '\''] else [c]) ++ ['\'']) ::
        ls) := by
  refine scan_token ?_ (by simp) (by simp) h
  have hb := stringBody_escaped hend s
  simp only [token, tail_cons]
  rw [hb]
  simp [isSpace, isNewline, stringToken]

/-- The empty string constant, under both settings. -/
theorem scan_emptyString (hend : EndsString rest) (h : scan scs rest = some ls) :
    scan scs ('\'' :: '\'' :: rest) = some ((.string [], ['\'', '\'']) :: ls) := by
  refine scan_token ?_ rfl (by simp) h
  simp only [token, stringBody_end _ hend]
  simp [isSpace, isNewline, stringToken]

end Rules

end Pg
