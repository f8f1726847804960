import Postvec.Lib.Lexing
import Postvec.Lib.PgScan

/-!
# The server's scanner

The rules of PostgreSQL's own scanner, from version 16 on, for texts of any kind. It differs from
the manual's account in `PgScan` in four ways: the value of a string constant is made of bytes, so
that octal and hexadecimal escapes can spell one character together; a bit-string constant has no
doubled quotes; a number or a parameter that runs into an identifier is an error, and numbers may
have a base and digit separators; and a character that starts nothing is a token of its own.

`Setting.vt` is whether `\v` stands for a vertical tab. The manual does not list the escape, so both
are allowed for. `backslash_quote` is taken to permit `\'`, and texts are in UTF-8.
-/

namespace Pg

open List Option

open Lexing (Scanner)

structure Setting where
  /-- `standard_conforming_strings` -/
  scs : Bool
  vt : Bool

/-! ## 1. String constants -/

def decode (bs : List UInt8) : Option Chars := (String.fromUTF8? ⟨bs.toArray⟩).map String.toList

/-- The value of `n` hexadecimal digits. -/
def hexDigits (n : Nat) (cs : Chars) : Option Nat :=
  if (cs.take n).length = n ∧ (cs.take n).all isHex then some (numeral 16 (cs.take n)) else none

/-- After `\u` or `\U`: a character, or the two halves of one, and how many characters spell it. -/
def unicodeEscape (n : Nat) (cs : Chars) : Option (Char × Nat) :=
  (hexDigits n cs).bind fun hi =>
    if 0xD800 ≤ hi ∧ hi < 0xDC00 then
      match cs.drop n with
      | '\\' :: u :: cs =>
        let m := if u = 'u' then 4 else 8
        if u = 'u' ∨ u = 'U' then
          (hexDigits m cs).bind fun lo =>
            if 0xDC00 ≤ lo ∧ lo < 0xE000 then
              some (Char.ofNat (0x10000 + (hi - 0xD800) * 0x400 + (lo - 0xDC00)), n + 2 + m)
            else none
        else none
      | _ => none
    else if hi.isValidChar ∧ hi ≠ 0 then some (Char.ofNat hi, n)
    else none

/-- What a character stands for after a backslash. -/
def unescape (vt : Bool) (c : Char) : List UInt8 :=
  if c = 'b' then [8]
  else if c = 'f' then [12]
  else if c = 'n' then [10]
  else if c = 'r' then [13]
  else if c = 't' then [9]
  else if c = 'v' ∧ vt then [11]
  else String.utf8EncodeChar c

/-- A backslash escape, after the backslash: its bytes and its length. -/
def escapeBytes (vt : Bool) : Chars → Option (List UInt8 × Nat)
  | [] => none
  | c :: cs =>
    if isOctal c then
      let ds := (cs.take 2).takeWhile isOctal
      some ([UInt8.ofNat (numeral 8 (c :: ds))], ds.length + 1)
    else if c = 'x' ∧ (cs.take 1).any isHex then
      let ds := (cs.take 2).takeWhile isHex
      some ([UInt8.ofNat (numeral 16 ds)], ds.length + 1)
    else if c = 'u' ∨ c = 'U' then
      (unicodeEscape (if c = 'u' then 4 else 8) cs).map fun r =>
        (String.utf8EncodeChar r.1, r.2 + 1)
    else some (unescape vt c, 1)

/-- The inside of a string constant: its bytes, and its length with the quote that ends it. -/
def stringPart (esc vt : Bool) (cs : Chars) : Option (List UInt8 × Nat) :=
  match cs with
  | [] => none
  | c :: cs =>
    if c = '\'' then
      if cs.head? = some '\'' then (stringPart esc vt cs.tail).map fun r => (39 :: r.1, r.2 + 2)
      else some ([], 1)
    else if esc ∧ c = '\\' then
      (escapeBytes vt cs).bind fun e =>
        (stringPart esc vt (cs.drop e.2)).map fun r => (e.1 ++ r.1, r.2 + e.2 + 1)
    else (stringPart esc vt cs).map fun r => (String.utf8EncodeChar c ++ r.1, r.2 + 1)
termination_by cs.length
decreasing_by
  all_goals
    simp only [length_tail, length_drop, length_cons]
    omega

/-- A string constant after its opening quote, with the parts it is continued by. -/
def constant (esc vt : Bool) (cs : Chars) : Option (List UInt8 × Nat) :=
  match stringPart esc vt cs with
  | none => none
  | some (v, n) =>
    match _h : gap false false (cs.drop n) with
    | none => some (v, n)
    | some rest => (constant esc vt rest).map fun r => (v ++ r.1, cs.length - rest.length + r.2)
termination_by cs.length
decreasing_by exact Nat.lt_of_lt_of_le (gap_length _h) (drop_suffix n cs).length_le

/-- A bit-string constant after its opening quote: everything up to a quote, and so on. -/
def bits (cs : Chars) : Option (Chars × Nat) :=
  let v := cs.takeWhile (· ≠ '\'')
  if v.length = cs.length then none
  else
    match _h : gap false false (cs.drop (v.length + 1)) with
    | none => some (v, v.length + 1)
    | some rest => (bits rest).map fun r => (v ++ r.1, cs.length - rest.length + r.2)
termination_by cs.length
decreasing_by exact Nat.lt_of_lt_of_le (gap_length _h) (drop_suffix _ cs).length_le

/-! ## 2. Numbers -/

/-- The identifier that follows, if one does. -/
def identRun (cs : Chars) : Chars :=
  if cs.head?.any isIdentStart then cs.takeWhile isIdentCont else []

/-- Digits with single separators. -/
def grouped (p : Char → Bool) : Chars → Bool
  | [] => true
  | '_' :: c :: cs => p c && grouped p cs
  | c :: cs => p c && grouped p cs

def isExp (c : Char) : Bool := c == 'e' || c == 'E'

/-- `0x`, `0o` and `0b`. -/
def based (digits run : Chars) : Bool :=
  digits == ['0'] && match run with
    | b :: run =>
      run.length != 0 && ((b == 'x' || b == 'X') && grouped isHex run ||
        (b == 'o' || b == 'O') && grouped isOctal run ||
        (b == 'b' || b == 'B') && grouped (fun c => c == '0' || c == '1') run)
    | [] => false

/-- The end of a number: `run` is the identifier that follows the text read so far, which must be
    more digits or an exponent; `bare` is a decimal point without digits after it. -/
def exponent (text run rest : Chars) (bare : Bool) : Option Chars :=
  let g := run.takeWhile fun c => !isExp c
  if grouped Char.isDigit g = false ∨ bare ∧ g ≠ [] then none
  else
    match run.dropWhile fun c => !isExp c with
    | [] => some (text ++ run)
    | _ :: d :: x => if d.isDigit ∧ grouped Char.isDigit x then some (text ++ run) else none
    | [_] =>
      match rest with
      | s :: rest =>
        let ds := rest.takeWhile Char.isDigit
        let g' := identRun (rest.dropWhile Char.isDigit)
        if (s = '+' ∨ s = '-') ∧ ds ≠ [] ∧ grouped Char.isDigit g' then
          some (text ++ run ++ s :: (ds ++ g'))
        else none
      | [] => none

/-- The end of a number after a decimal point. -/
def fraction (text cs : Chars) : Option Chars :=
  let fs := cs.takeWhile Char.isDigit
  let run := identRun (cs.drop fs.length)
  exponent (text ++ fs) run (cs.drop (fs.length + run.length)) (fs.length == 0)

/-- A number. -/
def number (cs : Chars) : Option Chars :=
  let ds := cs.takeWhile Char.isDigit
  let run := identRun (cs.drop ds.length)
  let rest := cs.drop (ds.length + run.length)
  if based ds run then some (ds ++ run)
  else if grouped Char.isDigit run then
    match rest with
    | '.' :: rest' =>
      -- two dots are a token of their own
      if rest'.head? = some '.' then some (ds ++ run) else fraction (ds ++ run ++ ['.']) rest'
    | _ => some (ds ++ run)
  else exponent ds run rest false

/-! ## 3. The scanner -/

/-- The token of a string constant that starts `skip` characters on: its bytes must be a text, and
    no byte of it is zero. -/
def stringLexeme (make : Chars → Token) (skip : Nat) (r : Option (List UInt8 × Nat)) :
    Option (Option Token × Nat) :=
  r.bind fun r => if 0 ∈ r.1 then none else (decode r.1).map fun s => (some (make s), skip + r.2)

/-- The tag of a dollar quote. -/
def tagOf (cs : Chars) : Chars := cs.takeWhile fun d => isIdentCont d && d != '$'

/-- Operators of one character are mostly tokens of their own. -/
def operator (text : Chars) : Token :=
  match text with
  | [c] => if isSelf c then .self c else .op [c]
  | text => .op text

/-- The token that starts with `c`, none for white space and comments, and its length without
    `c`. -/
def lexeme (σ : Setting) (c : Char) (cs : Chars) : Option (Option Token × Nat) :=
  if isSpace c then some (none, 0)
  else if c = '-' ∧ cs.head? = some '-' then
    some (none, (cs.takeWhile fun d => !isNewline d).length)
  else if c = '/' ∧ cs.head? = some '*' then
    (blockComment 0 cs.tail).map fun r => (none, cs.length - r.length)
  else if c = '\'' then stringLexeme .string 0 (constant (!σ.scs) σ.vt cs)
  else if (c = 'E' ∨ c = 'e') ∧ cs.head? = some '\'' then
    stringLexeme .string 1 (constant true σ.vt (cs.drop 1))
  else if (c = 'B' ∨ c = 'b') ∧ cs.head? = some '\'' then
    (bits (cs.drop 1)).map fun r => (some (.bitString r.1), 1 + r.2)
  else if (c = 'X' ∨ c = 'x') ∧ cs.head? = some '\'' then
    (bits (cs.drop 1)).map fun r => (some (.hexString r.1), 1 + r.2)
  else if (c = 'N' ∨ c = 'n') ∧ cs.head? = some '\'' then some (some (.word "nchar".toList), 0)
  else if (c = 'U' ∨ c = 'u') ∧ cs.take 2 = ['&', '\''] then
    if σ.scs then stringLexeme .unicodeString 2 (constant false σ.vt (cs.drop 2)) else none
  else if (c = 'U' ∨ c = 'u') ∧ cs.take 2 = ['&', '"'] then
    (identBody (cs.drop 2)).bind fun r =>
      if r.1 = [] then none else some (some (.unicodeIdent r.1), cs.length - r.2.length)
  else if c = '"' then
    (identBody cs).bind fun r =>
      if r.1 = [] then none
      else some (some (.quotedIdent (clip maxNameBytes r.1)), cs.length - r.2.length)
  else if isIdentStart c then
    let name := cs.takeWhile isIdentCont
    some (some (.word (clip maxNameBytes ((c :: name).map Char.toLower))), name.length)
  else if c.isDigit ∨ c = '.' ∧ cs.head?.any Char.isDigit then
    (number (c :: cs)).map fun text => (some (.number text), text.length - 1)
  else if c = '$' ∧ cs.head?.any Char.isDigit then
    let ds := cs.takeWhile Char.isDigit
    if (cs.drop ds.length).head?.any isIdentStart then none else some (some (.param ds), ds.length)
  else if c = '$' then
    if (cs.drop (tagOf cs).length).head? = some '$' then
      (dollarBody ('$' :: (tagOf cs ++ ['$'])) (cs.drop ((tagOf cs).length + 1))).map fun r =>
        (some (.string r.1), cs.length - r.2.length)
    else some (some (.self '$'), 0)
  else if c = ':' ∧ cs.head? = some ':' then some (some .typecast, 1)
  else if c = ':' ∧ cs.head? = some '=' then some (some (.op [':', '=']), 1)
  else if c = '.' ∧ cs.head? = some '.' then some (some (.op ['.', '.']), 1)
  else if isOpChar c then
    let text := trimOp (operatorText (c :: cs))
    some (some (operator text), text.length - 1)
  else some (some (.self c), 0)

/-- The server's scanner. -/
def flex (σ : Setting) : Scanner Unit Token := fun c cs => (lexeme σ c cs).elim (.error ()) .ok

variable {σ : Setting} {c : Char} {cs : Chars} {t : Option Token} {n skip : Nat}

theorem flex_some (h : flex σ c cs = .ok (t, n)) : lexeme σ c cs = some (t, n) := by
  unfold flex at h
  cases hl : lexeme σ c cs with
  | none =>
    rw [hl] at h
    cases h
  | some r =>
    rw [hl] at h
    cases h
    rfl

theorem stringLexeme_some {make : Chars → Token} {o : Option (List UInt8 × Nat)}
    (h : stringLexeme make skip o = some (t, n)) :
    ∃ v m s, o = some (v, m) ∧ decode v = some s ∧ t = some (make s) ∧ n = skip + m := by
  obtain ⟨⟨v, m⟩, ho, h⟩ := bind_eq_some_iff.mp h
  dsimp only at h
  split at h
  · cases h
  · obtain ⟨s, hs, h⟩ := map_eq_some_iff.mp h
    cases h
    exact ⟨v, m, s, ho, hs, rfl, rfl⟩

/-- A constant is its first part, or that and more behind a gap. -/
theorem constant_inv {esc vt : Bool} {v : List UInt8} (h : constant esc vt cs = some (v, n)) :
    ∃ v₁ m, stringPart esc vt cs = some (v₁, m) ∧
      (v = v₁ ∧ n = m ∨ ∃ rest, gap false false (cs.drop m) = some rest) := by
  rw [constant] at h
  split at h
  · cases h
  · rename_i v₁ m hs
    refine ⟨v₁, m, hs, ?_⟩
    split at h
    · cases h
      exact .inl ⟨rfl, rfl⟩
    · rename_i rest hg
      exact .inr ⟨rest, hg⟩

end Pg
