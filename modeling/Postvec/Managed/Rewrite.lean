import Postvec.Lib.PgFlex

/-!
# The calls the proxy rewrites

The proxy looks in every statement for `postvec.search(...)` and `postvec.embed(...)` whose text and
names are constants or parameters, and puts the embedding of the text before the closing
parenthesis. It reads the statement with a scanner of its own, `lex`, and `scanWithStrings` finds
the calls among the tokens. What `lex` cannot follow is an error, and then the statement is left as
it is.

Offsets are in bytes, as the source has them.
-/

namespace Postvec.Rewrite

open List Option

open Lexing (Scanner Span utf8Len)
open Pg (Chars isHex isOctal numeral decode)

/-! ## 1. The scanner -/

inductive Tok where
  | ident (s : Chars)
  | str (s : Chars)
  | param (n : Nat)
  | punct (s : Chars)
deriving DecidableEq, Repr

/-- `u8::is_ascii_whitespace` -/
def isAsciiWhitespace (c : Char) : Bool :=
  c == ' ' || c == '\t' || c == '\n' || c == '\x0c' || c == '\r'

/-- `is_ascii_alphanumeric`, or an underscore. -/
def isTagChar (c : Char) : Bool := c.isAlpha || c.isDigit || c == '_'

def isIdentByte (c : Char) : Bool := isTagChar c || c == '$' || 0x80 ≤ c.toNat

/-- The rest after a comment; `depth` counts the comments that are open. -/
def lexComment : Nat → Chars → Except String Chars
  | depth, '/' :: '*' :: cs => lexComment (depth + 1) cs
  | depth, '*' :: '/' :: cs => if depth - 1 = 0 then .ok cs else lexComment (depth - 1) cs
  | depth, _ :: cs => lexComment depth cs
  | _, [] => .error "unterminated comment"

/-- An escape, after the backslash: its bytes and its length. -/
def lexEscape : Chars → Except String (List UInt8 × Nat)
  | [] => .error "unterminated string"
  | e :: cs =>
    if e = 'n' then .ok ([10], 1)
    else if e = 't' then .ok ([9], 1)
    else if e = 'r' then .ok ([13], 1)
    else if e = 'b' then .ok ([8], 1)
    else if e = 'f' then .ok ([12], 1)
    else if isOctal e then
      let ds := (cs.take 2).takeWhile isOctal
      .ok ([UInt8.ofNat (numeral 8 (e :: ds))], ds.length + 1)
    else if e = 'x' ∧ 0 < ((cs.take 2).takeWhile isHex).length then
      let ds := (cs.take 2).takeWhile isHex
      .ok ([UInt8.ofNat (numeral 16 ds)], ds.length + 1)
    else if e = 'u' ∨ e = 'U' then
      let n := if e = 'u' then 4 else 8
      let ds := (cs.take n).takeWhile isHex
      if ds.length ≠ n then .error "invalid Unicode escape"
      else if (numeral 16 ds).isValidChar then
        .ok (String.utf8EncodeChar (Char.ofNat (numeral 16 ds)), n + 1)
      else .error "invalid Unicode escape"
    -- any other character stands for itself
    else .ok (String.utf8EncodeChar e, 1)

/-- The inside of a string: its bytes, and its length with the quote that ends it. -/
def lexString (escapes : Bool) (cs : Chars) : Except String (List UInt8 × Nat) :=
  match cs with
  | [] => .error "unterminated string"
  | c :: cs =>
    if c = '\'' then
      if cs.head? = some '\'' then (lexString escapes cs.tail).map fun r => (39 :: r.1, r.2 + 2)
      else .ok ([], 1)
    else if c = '\\' ∧ escapes then
      match lexEscape cs with
      | .error e => .error e
      | .ok (v, n) => (lexString escapes (cs.drop n)).map fun r => (v ++ r.1, r.2 + n + 1)
    else (lexString escapes cs).map fun r => (String.utf8EncodeChar c ++ r.1, r.2 + 1)
termination_by cs.length
decreasing_by
  all_goals
    simp only [length_tail, length_drop, length_cons]
    omega

/-- The inside of a quoted identifier, and what follows it. -/
def lexQuoted : Chars → Except String (Chars × Chars)
  | [] => .error "unterminated identifier"
  | c :: cs =>
    if c = '"' then
      match cs with
      | '"' :: cs => (lexQuoted cs).map fun r => ('"' :: r.1, r.2)
      | _ => .ok ([], cs)
    else (lexQuoted cs).map fun r => (c :: r.1, r.2)

/-- `find`: what stands before the first `tag`, and what follows it. -/
def findTag (tag : Chars) : Chars → Option (Chars × Chars)
  | [] => none
  | c :: cs =>
    if tag.isPrefixOf (c :: cs) then some ([], (c :: cs).drop tag.length)
    else (findTag tag cs).map fun r => (c :: r.1, r.2)

/-- One round of the loop of `lex`. -/
def lexStep (standardStrings : Bool) (c : Char) (cs : Chars) : Except String (Option Tok × Nat) :=
  if isAsciiWhitespace c then .ok (none, 0)
  else if c = '-' ∧ cs.head? = some '-' then
    .ok (none, (cs.takeWhile fun d => d != '\n' && d != '\r').length)
  else if c = '/' ∧ cs.head? = some '*' then
    (lexComment 0 (c :: cs)).map fun rest => (none, cs.length - rest.length)
  else if c = '\'' ∨ (c = 'E' ∨ c = 'e') ∧ cs.head? = some '\'' then
    let skip := if c = '\'' then 0 else 1
    match lexString (c != '\'' || !standardStrings) (cs.drop skip) with
    | .error e => .error e
    | .ok (s, n) =>
      match decode s with
      | some s => .ok (some (.str s), skip + n)
      | none => .error "string is not valid UTF-8"
  else if c = '"' then
    (lexQuoted cs).map fun r => (some (.ident r.1), cs.length - r.2.length)
  else if c = '$' ∧ cs.head?.any Char.isDigit then
    let ds := cs.takeWhile Char.isDigit
    if numeral 10 ds < 2 ^ 16 then .ok (some (.param (numeral 10 ds)), ds.length)
    else .error "parameter number out of range"
  else if c = '$' then
    let tag := cs.takeWhile isTagChar
    if (cs.drop tag.length).head? ≠ some '$' then .error "unexpected $"
    else
      match findTag ('$' :: (tag ++ ['$'])) (cs.drop (tag.length + 1)) with
      | none => .error "unterminated dollar-quoted string"
      | some (body, rest) => .ok (some (.str body), cs.length - rest.length)
  else if c.isAlpha ∨ c = '_' ∨ 0x80 ≤ c.toNat then
    let name := cs.takeWhile isIdentByte
    .ok (some (.ident ((c :: name).map Char.toLower)), name.length)
  else if c = ':' ∧ cs.head? = some ':' ∨ c = '=' ∧ cs.head? = some '>' then
    .ok (some (.punct (c :: cs.take 1)), 1)
  else .ok (some (.punct [c]), 0)

def lexer (standardStrings : Bool) : Scanner String Tok := lexStep standardStrings

def lex (sql : Chars) (standardStrings : Bool) : Except String (List (Span Tok)) :=
  (lexer standardStrings).run (utf8Len sql) sql

/-! ## 2. Arguments -/

inductive Arg where
  | literal (s : Chars)
  | param (n : Nat)
deriving DecidableEq, Repr

abbrev Toks := List (Span Tok)

/-- The tokens of a cast to `text`, `varchar` or `character varying`. -/
def castLength (toks : Toks) : Option Nat :=
  match toks.map Prod.fst with
  | .punct [':', ':'] :: .ident a :: rest =>
    if a = "character".toList ∧ rest.head? = some (.ident "varying".toList) then some 3
    else if a = "text".toList ∨ a = "varchar".toList then some 2
    else none
  | _ => none

/-- The length of a leading cast, unless a length that truncates follows. -/
def textCast (toks : Toks) : Option Nat :=
  (castLength toks).bind fun n =>
    if (toks.drop n).head?.map Prod.fst = some (.punct ['(']) then none else some n

theorem castLength_of_textCast {toks : Toks} {n : Nat} (h : textCast toks = some n) :
    castLength toks = some n := by
  obtain ⟨k, hk, h⟩ := bind_eq_some_iff.mp h
  split at h
  · cases h
  · cases h
    exact hk

theorem textCast_pos {toks : Toks} {n : Nat} (h : textCast toks = some n) : 0 < n := by
  have hk := castLength_of_textCast h
  unfold castLength at hk
  split at hk
  · split at hk
    · cases hk
      decide
    · split at hk
      · cases hk
        decide
      · cases hk
  · cases hk

/-- What follows the value of an argument: the parentheses that are left open, and whether there is
    a cast. -/
def argRest (depth : Nat) (cast : Bool) (rest : Toks) : Option (Nat × Bool) :=
  match rest with
  | [] => some (depth, cast)
  | t :: rest =>
    if t.1 = .punct [')'] ∧ 0 < depth then argRest (depth - 1) cast rest
    else
      match _h : textCast (t :: rest) with
      | none => none
      | some n => argRest depth true ((t :: rest).drop n)
termination_by rest.length
decreasing_by
  · simp
  · have := textCast_pos _h
    rw [length_drop, length_cons]
    omega

/-- The value a token stands for. -/
def Tok.value : Tok → Option Arg
  | .str s => some (.literal s)
  | .param n => some (.param n)
  | _ => none

/-- A constant or a parameter, in parentheses or cast to text, and whether it is cast. -/
def arg (toks : Toks) : Option (Arg × Bool) :=
  let opened := (toks.takeWhile fun t => t.1 = .punct ['(']).length
  match toks.drop opened with
  | [] => none
  | t :: rest =>
    t.1.value.bind fun value => (argRest opened false rest).bind fun (depth, cast) =>
      if depth = 0 then some (value, cast) else none

def literal (toks : Toks) : Option Chars :=
  match arg toks with
  | some (.literal s, _) => some s
  | _ => none

/-! ## 3. The calls -/

structure Call where
  start : Nat
  stop : Nat
  /-- where the closing parenthesis starts -/
  close : Nat
  embed : Bool
  /-- the relation of a search, the model of an embedding -/
  relation : Chars
  column : Chars
  text : Arg
  untyped : Bool
deriving DecidableEq, Repr

/-- The arguments up to the closing parenthesis, that, and what follows it. -/
def arguments (depth : Nat) (current : Toks) : Toks → Option (List Toks × Span Tok × Toks)
  | [] => none
  | t :: toks =>
    if t.1 = .punct ['('] ∨ t.1 = .punct ['['] then arguments (depth + 1) (current ++ [t]) toks
    else if (t.1 = .punct [')'] ∨ t.1 = .punct [']']) ∧ 0 < depth then
      arguments (depth - 1) (current ++ [t]) toks
    else if t.1 = .punct [')'] then some ([current], t, toks)
    else if t.1 = .punct [','] ∧ depth = 0 then
      (arguments depth [] toks).map fun r => (current :: r.1, r.2)
    else arguments depth (current ++ [t]) toks

/-- The call and the span of its text, if the arguments are of the kind that is rewritten. -/
def callOf (start : Nat) (embed : Bool) (args : List Toks) (close : Span Tok) :
    Option (Call × Nat × Nat) :=
  let finish (relation column : Chars) (text : Toks) : Option (Call × Nat × Nat) :=
    (arg text).bind fun (value, cast) => text.head?.bind fun first => text.getLast?.map fun last =>
      (⟨start, close.2.2, close.2.1, embed, relation, column, value, !cast⟩, first.2.1, last.2.2)
  match embed, args with
  | true, [text, model] => (literal model).bind fun relation => finish relation [] text
  | false, rel :: col :: text :: _ =>
    (literal rel).bind fun relation => (literal col).bind fun column => finish relation column text
  | _, _ => none

end Postvec.Rewrite
