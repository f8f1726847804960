import Postvec.Managed.Rewrite

/-!
# The proxy's scanner and the server's

Where both scanners stand at the same place, the proxy's reads the server's token, or its tokens
start with one that no call has there (`Foreign`): a string constant that goes on in another line is
two strings for it, the letter before a quote is an identifier, and digits and the characters of an
operator are tokens of their own. So from a place at which both stand their tokens go side by side,
up to the first that cannot belong to a call (`paired`).

What they make of a constant is the same but for `\v`, an escape that only the server may know.
-/

namespace Postvec.Rewrite

open Lexing Pg List Option

/-! ## 1. Tokens side by side -/

/-- The tokens without their places. -/
def tokens {T : Type} (L : List (Span T)) : List T := L.map Prod.fst

/-- The names of the types an argument may be cast to. -/
def typeNames : List Chars :=
  ["text".toList, "varchar".toList, "character".toList, "varying".toList]

def callNames : List Chars := ["postvec".toList, "search".toList, "embed".toList] ++ typeNames

/-- The tokens a call and its first arguments are made of. -/
def key : Tok → Bool
  | .ident s => callNames.contains s
  | .str _ => true
  | .param _ => true
  | .punct s => [['.'], ['('], [')'], [','], [':', ':']].contains s

/-- One token for both; the value of a constant is the same if the server does not know `\v`. -/
def Same (vt : Bool) (t : Token) : Tok → Prop
  | .ident s => t = .word (clip maxNameBytes s) ∨ t = .quotedIdent (clip maxNameBytes s)
  | .str s => ∃ u, t = .string u ∧ (vt = false → u = s)
  | .param n => ∃ ds, t = .param ds ∧ numeral 10 ds = n
  | .punct s => (∃ c, s = [c] ∧ t = .self c) ∨ s = [':', ':'] ∧ t = .typecast

/-- A string, or a token no call has. -/
def Breaks (L : List Tok) : Prop := ∃ y L', L = y :: L' ∧ (key y = false ∨ ∃ s, y = .str s)

/-- Tokens no call has: a string is not followed by another, nor a dot by anything but a name. -/
inductive Foreign : List Tok → Prop where
  | dull {x : Tok} {L : List Tok} (hx : key x = false) : Foreign (x :: L)
  | dot {y : Tok} {L : List Tok} (hy : ∀ s, y ≠ .ident s) : Foreign (.punct ['.'] :: y :: L)
  | str {s : Chars} {L : List Tok} (hL : Breaks L) : Foreign (.str s :: L)

/-- The proxy's tokens, for a round of the server's scanner that reads `n` characters of `cs`. -/
inductive Beside (σ : Setting) (total : Nat) (cs : Chars) (n : Nat) :
    Option Token → List Tok → Prop where
  | one {t : Token} {x : Tok} {L : Toks} (h : Same σ.vt t x)
      (hL : (lexer σ.scs).run total (cs.drop n) = .ok L) :
      Beside σ total cs n (some t) (x :: tokens L)
  | none {L : Toks} (hL : (lexer σ.scs).run total (cs.drop n) = .ok L) :
      Beside σ total cs n none (tokens L)
  | other {t : Option Token} {L : List Tok} (h : Foreign L) : Beside σ total cs n t L

section Rounds

variable {σ : Setting} {total n : Nat} {c : Char} {cs : Chars} {L : Toks} {x : Tok}

/-- The tokens after a round that is known. -/
theorem run_after {t : Option Tok} (hs : lexStep σ.scs c cs = .ok (t, n))
    (hL : (lexer σ.scs).run total (c :: cs) = .ok L) :
    ∃ L', (lexer σ.scs).run total (cs.drop n) = .ok L' ∧ tokens L = t.toList ++ tokens L' := by
  obtain ⟨t', n', L', hs', hr, rfl⟩ := Scanner.run_inv hL
  cases hs.symm.trans hs'
  refine ⟨L', hr, ?_⟩
  cases t <;> rfl

theorem beside_one {t : Token} (hs : lexStep σ.scs c cs = .ok (some x, n)) (h : Same σ.vt t x)
    (hL : (lexer σ.scs).run total (c :: cs) = .ok L) :
    Beside σ total cs n (some t) (tokens L) := by
  obtain ⟨L', hr, e⟩ := run_after hs hL
  rw [e]
  exact .one h hr

theorem beside_none (hs : lexStep σ.scs c cs = .ok (none, n))
    (hL : (lexer σ.scs).run total (c :: cs) = .ok L) : Beside σ total cs n none (tokens L) := by
  obtain ⟨L', hr, e⟩ := run_after hs hL
  rw [e]
  exact .none hr

theorem foreign_dull (hs : lexStep σ.scs c cs = .ok (some x, n)) (hk : key x = false)
    (hL : (lexer σ.scs).run total (c :: cs) = .ok L) : Foreign (tokens L) := by
  obtain ⟨L', -, e⟩ := run_after hs hL
  rw [e]
  exact .dull hk

end Rounds

/-! ## 2. Strings -/

variable {cs : Chars}

theorem hex_front :
    0 < ((cs.take 2).takeWhile isHex).length ↔ (cs.take 1).any isHex = true := by
  cases cs with
  | nil => decide
  | cons d cs => cases hd : isHex d <;> simp [hd]

/-- All the digits are there. -/
theorem hexDigits_of_length {n : Nat} (h : ((cs.take n).takeWhile isHex).length = n) :
    (cs.take n).takeWhile isHex = cs.take n ∧
      hexDigits n cs = some (numeral 16 (cs.take n)) := by
  have hle : (cs.take n).length ≤ n := length_take_le ..
  have heq : (cs.take n).takeWhile isHex = cs.take n :=
    (List.takeWhile_prefix isHex).eq_of_length_le (by omega)
  refine ⟨heq, if_pos ⟨by rw [← heq, h], ?_⟩⟩
  rw [← heq]
  exact all_takeWhile

variable {vt : Bool} {n n' : Nat} {v v' : List UInt8}

theorem escape_sync (h : lexEscape cs = .ok (v, n)) (h' : escapeBytes vt cs = some (v', n')) :
    n = n' ∧ (vt = false → v = v') := by
  have hsame : ∀ {p}, Except.ok (ε := String) p = .ok (v, n) → some p = some (v', n') →
      n = n' ∧ (vt = false → v = v') := by
    intro p h h'
    cases h
    cases h'
    exact ⟨rfl, fun _ => rfl⟩
  cases cs with
  | nil => cases h
  | cons e cs =>
    by_cases he : e ∈ ['n', 't', 'r', 'b', 'f']
    · simp only [mem_cons, not_mem_nil, or_false] at he
      rcases he with rfl | rfl | rfl | rfl | rfl <;> exact hsame h h'
    simp only [mem_cons, not_mem_nil, or_false, not_or] at he
    obtain ⟨hn, ht, hr, hb, hf⟩ := he
    unfold lexEscape at h
    unfold escapeBytes at h'
    dsimp only at h h'
    rw [if_neg hn, if_neg ht, if_neg hr, if_neg hb, if_neg hf] at h
    rcases ite_eq_iff.mp h with ⟨ho, h⟩ | ⟨ho, h⟩
    · rw [if_pos ho] at h'
      exact hsame h h'
    rw [if_neg ho] at h'
    rcases ite_eq_iff.mp h with ⟨⟨hx, hd⟩, h⟩ | ⟨hx, h⟩
    · rw [if_pos ⟨hx, hex_front.mp hd⟩] at h'
      exact hsame h h'
    rw [if_neg fun hx' => hx ⟨hx'.1, hex_front.mpr hx'.2⟩] at h'
    rcases ite_eq_iff.mp h with ⟨hu, h⟩ | ⟨hu, h⟩
    · rw [if_pos hu] at h'
      generalize (if e = 'u' then 4 else 8) = k at h h'
      rcases ite_eq_iff.mp h with ⟨-, h⟩ | ⟨hlen, h⟩
      · cases h
      obtain ⟨hds, hhex⟩ := hexDigits_of_length (not_not.mp hlen)
      rw [hds] at h
      rcases ite_eq_iff.mp h with ⟨hval, h⟩ | ⟨-, h⟩
      · -- a half of a character is none of its own
        have hsur : ¬ (0xD800 ≤ numeral 16 (cs.take k) ∧ numeral 16 (cs.take k) < 0xDC00) := by
          rcases hval with hval | hval <;> omega
        rw [unicodeEscape, hhex, bind_some, if_neg hsur] at h'
        split at h'
        · exact hsame h h'
        · cases h'
      · cases h
    · rw [if_neg hu] at h'
      cases h
      cases h'
      refine ⟨rfl, fun hvt => ?_⟩
      rw [unescape, if_neg hb, if_neg hf, if_neg hn, if_neg hr, if_neg ht, if_neg (by simp [hvt])]

/-- Up to the quote both read the same bytes, but for the escape only the server knows. -/
theorem string_sync {esc : Bool} (h : lexString esc cs = .ok (v, n))
    (h' : stringPart esc vt cs = some (v', n')) : n = n' ∧ (vt = false → v = v') := by
  have hmore : ∀ (k : Nat) {front front' : List UInt8} {r r' : List UInt8 × Nat},
      (vt = false → front = front') → r.2 = r'.2 ∧ (vt = false → r.1 = r'.1) →
      r.2 + k = r'.2 + k ∧ (vt = false → front ++ r.1 = front' ++ r'.1) :=
    fun k _ _ _ _ hf hr => ⟨by rw [hr.1], fun hvt => by rw [hf hvt, hr.2 hvt]⟩
  fun_induction lexString esc cs generalizing v v' n n' with
  | case1 => cases h
  | case2 cs hq ih =>
    obtain ⟨r, h1, h2⟩ := map_eq_ok h
    rw [stringPart, if_pos rfl, if_pos hq] at h'
    obtain ⟨r', h3, h4⟩ := map_eq_some_iff.mp h'
    cases h2
    cases h4
    exact @hmore 2 [39] [39] _ _ (fun _ => rfl) (ih h1 h3)
  | case3 cs hq =>
    rw [stringPart, if_pos rfl, if_neg hq] at h'
    cases h
    cases h'
    exact ⟨rfl, fun _ => rfl⟩
  | case4 => cases h
  | case5 c cs hc he w k hesc ih =>
    obtain ⟨r, h1, h2⟩ := map_eq_ok h
    rw [stringPart, if_neg hc, if_pos ⟨he.2, he.1⟩] at h'
    obtain ⟨⟨w', k'⟩, hesc', h'⟩ := bind_eq_some_iff.mp h'
    obtain ⟨rfl, hw⟩ := escape_sync hesc hesc'
    obtain ⟨r', h3, h4⟩ := map_eq_some_iff.mp h'
    cases h2
    cases h4
    exact hmore (k + 1) hw (ih h1 h3)
  | case6 c cs hc he ih =>
    obtain ⟨r, h1, h2⟩ := map_eq_ok h
    rw [stringPart, if_neg hc, if_neg fun he' => he ⟨he'.2, he'.1⟩] at h'
    obtain ⟨r', h3, h4⟩ := map_eq_some_iff.mp h'
    cases h2
    cases h4
    exact hmore 1 (fun _ => rfl) (ih h1 h3)

section Strings

variable {σ : Setting} {total : Nat} {c : Char} {std : Bool} {L : Toks}

theorem drop_length_takeWhile (p : Char → Bool) (cs : Chars) :
    cs.drop (cs.takeWhile p).length = cs.dropWhile p := by
  have h := prefix_iff_eq_append.mp (List.takeWhile_prefix (l := cs) p)
  exact append_cancel_left (h.trans (takeWhile_append_dropWhile (p := p)).symm)

/-- White space: a vertical tab is a token for the proxy. -/
theorem lexStep_space (hc : isSpace c = true) (cs : Chars) :
    lexStep std c cs = .ok (none, 0) ∨ lexStep std c cs = .ok (some (.punct ['\x0b']), 0) := by
  simp only [isSpace, isNewline, Bool.or_eq_true, beq_iff_eq] at hc
  rcases hc with (((rfl | rfl) | rfl | rfl) | rfl) | rfl
  all_goals first | exact .inl rfl | exact .inr rfl

theorem lexStep_lineComment (cs : Chars) : lexStep std '-' ('-' :: cs) =
    .ok (none, (('-' :: cs).takeWhile fun d => !isNewline d).length) := by
  have hp : (fun d : Char => d != '\n' && d != '\r') = fun d => !isNewline d := by
    funext d
    rw [isNewline, Bool.not_or]
    rfl
  rw [← hp]
  rfl

/-- What a round that reads a string does. -/
theorem lexStep_string {t : Option Tok} {skip : Nat} (hskip : skip = if c = '\'' then 0 else 1)
    (hc : c = '\'' ∨ (c = 'E' ∨ c = 'e') ∧ cs.head? = some '\'')
    (h : lexStep std c cs = .ok (t, n)) :
    ∃ v m s, lexString (c != '\'' || !std) (cs.drop skip) = .ok (v, m) ∧ decode v = some s ∧
      t = some (.str s) ∧ n = skip + m := by
  have hw : ¬ isAsciiWhitespace c = true := by
    rcases hc with rfl | ⟨rfl | rfl, -⟩ <;> decide
  have hd : ¬ (c = '-' ∧ cs.head? = some '-') := by
    rcases hc with rfl | ⟨rfl | rfl, -⟩ <;> simp
  have hs : ¬ (c = '/' ∧ cs.head? = some '*') := by
    rcases hc with rfl | ⟨rfl | rfl, -⟩ <;> simp
  unfold lexStep at h
  rw [if_neg hw, if_neg hd, if_neg hs, if_pos hc] at h
  dsimp only at h
  rw [← hskip] at h
  split at h
  · cases h
  · rename_i v m hv
    split at h
    · rename_i s hs
      cases h
      exact ⟨v, m, s, hv, hs, rfl, rfl⟩
    · cases h

/-- Behind a gap in a string constant the proxy reads another string, if not a vertical tab
    before. A comment in the gap is one for it as well. -/
theorem gap_next {rest : Chars} {comment newline : Bool} (h : gap comment newline cs = some rest)
    (hL : (lexer σ.scs).run total (if comment then cs.dropWhile fun d => !isNewline d else cs) =
      .ok L) : Breaks (tokens L) := by
  have hspace : ∀ {c : Char} {cs : Chars} {L : Toks}, isSpace c = true →
      (lexer σ.scs).run total (c :: cs) = .ok L →
      (∀ {L}, (lexer σ.scs).run total cs = .ok L → Breaks (tokens L)) → Breaks (tokens L) := by
    intro c cs L hs hL ih
    rcases lexStep_space hs cs with hstep | hstep
    · obtain ⟨L', hr, e⟩ := run_after hstep hL
      rw [e]
      exact ih hr
    · obtain ⟨L', -, e⟩ := run_after hstep hL
      exact ⟨_, _, e, .inl rfl⟩
  have hnl : ∀ {c : Char}, isNewline c = true → isSpace c = true := fun hn => by
    simp only [isSpace, hn, Bool.or_true, Bool.true_or]
  fun_induction gap comment newline cs generalizing L with
  | case1 => cases h
  | case2 newline c cs hn ih =>
    rw [if_pos rfl, dropWhile_cons_of_neg (by rw [hn]; decide)] at hL
    exact hspace (hnl hn) hL (ih h)
  | case3 newline c cs hn ih =>
    rw [if_pos rfl, dropWhile_cons_of_pos (by simpa using hn)] at hL
    exact ih h hL
  | case4 comment cs hc =>
    rw [if_neg hc] at hL
    obtain ⟨t, r, L', hs, -, rfl⟩ := Scanner.run_inv hL
    obtain ⟨v, m, s, -, -, rfl, -⟩ := lexStep_string rfl (.inl rfl) hs
    exact ⟨_, _, rfl, .inr ⟨s, rfl⟩⟩
  | case6 comment newline c cs hc hq hn ih =>
    rw [if_neg hc] at hL
    exact hspace (hnl hn) hL (ih h)
  | case7 comment newline c cs hc hq hn hs ih =>
    rw [if_neg hc] at hL
    exact hspace hs hL (ih h)
  | case8 comment newline hc cs hq hn hs ih =>
    rw [if_neg hc] at hL
    obtain ⟨L', hr, e⟩ := run_after (lexStep_lineComment cs) hL
    rw [drop_length_takeWhile, dropWhile_cons_of_pos rfl] at hr
    rw [e]
    exact ih h hr
  | case5 | case9 | case10 => cases h

/-- A string constant: one string for both, or two and more for the proxy. -/
theorem beside_constant {s : Chars} {skip : Nat} {esc : Bool}
    (hc : c = '\'' ∨ (c = 'E' ∨ c = 'e') ∧ cs.head? = some '\'')
    (hskip : skip = if c = '\'' then 0 else 1) (hesc : esc = (c != '\'' || !σ.scs))
    (hv : constant esc σ.vt (cs.drop skip) = some (v, n)) (hs : decode v = some s)
    (hL : (lexer σ.scs).run total (c :: cs) = .ok L) :
    Beside σ total cs (skip + n) (some (.string s)) (tokens L) := by
  obtain ⟨t, k, L', ht, hr, rfl⟩ := Scanner.run_inv hL
  obtain ⟨w, m, s', hw, hs', rfl, rfl⟩ := lexStep_string hskip hc ht
  rw [← hesc] at hw
  obtain ⟨v₁, m', hpart, hend⟩ := constant_inv hv
  obtain ⟨rfl, hval⟩ := string_sync hw hpart
  rcases hend with ⟨rfl, rfl⟩ | ⟨rest, hg⟩
  · refine .one ⟨s, rfl, fun hvt => ?_⟩ hr
    rw [hval hvt, hs] at hs'
    exact Option.some.inj hs'
  · rw [← drop_drop] at hr
    exact .other (.str (gap_next hg hr))

end Strings

/-! ## 3. Words and marks -/

section

variable {σ : Setting} {total : Nat} {c : Char} {std : Bool} {p : Char → Bool} {L : Toks}

theorem isIdentByte_eq : isIdentByte = isIdentCont := by
  funext c
  simp only [isIdentByte, isTagChar, isIdentCont, isIdentStart]
  cases c.isAlpha <;> cases c.isDigit <;> cases c == '_' <;> cases c == '$' <;> simp

theorem ne_of_class (hc : p c = true) : ∀ d, p d = false → c ≠ d := by
  intro d hd e
  rw [e, hd] at hc
  cases hc

theorem isSpace_of_white (h : isAsciiWhitespace c = true) :
    isSpace c = true ∧ isIdentStart c = false := by
  simp only [isAsciiWhitespace, Bool.or_eq_true, beq_iff_eq] at h
  rcases h with (((rfl | rfl) | rfl) | rfl) | rfl <;> decide

theorem lexStep_word (hc : isIdentStart c = true)
    (hq : ¬ ((c = 'E' ∨ c = 'e') ∧ cs.head? = some '\'')) :
    lexStep std c cs = .ok (some (.ident ((c :: cs.takeWhile isIdentCont).map Char.toLower)),
      (cs.takeWhile isIdentCont).length) := by
  have hne : ∀ d, isIdentStart d = false → c ≠ d := ne_of_class hc
  have hw : ¬ isAsciiWhitespace c = true := fun hw => by
    rw [(isSpace_of_white hw).2] at hc
    cases hc
  have hs : c.isAlpha ∨ c = '_' ∨ 0x80 ≤ c.toNat := by
    simp only [isIdentStart, Bool.or_eq_true, beq_iff_eq, decide_eq_true_eq] at hc
    tauto
  unfold lexStep
  rw [if_neg hw, if_neg (fun h => hne '-' (by decide) h.1),
    if_neg (fun h => hne '/' (by decide) h.1),
    if_neg (fun h => h.elim (hne '\'' (by decide)) hq), if_neg (hne '"' (by decide)),
    if_neg (fun h => hne '$' (by decide) h.1), if_neg (hne '$' (by decide)), if_pos hs,
    isIdentByte_eq]

/-- Characters that start nothing for the proxy. -/
def isMark (c : Char) : Bool :=
  !isSpace c && !isIdentStart c && c != '\'' && c != '"' && c != '$'

theorem lexStep_mark (hc : isMark c = true) (hd : ¬ (c = '-' ∧ cs.head? = some '-'))
    (hs : ¬ (c = '/' ∧ cs.head? = some '*')) :
    lexStep std c cs =
      if c = ':' ∧ cs.head? = some ':' ∨ c = '=' ∧ cs.head? = some '>' then
        .ok (some (.punct (c :: cs.take 1)), 1)
      else .ok (some (.punct [c]), 0) := by
  simp only [isMark, Bool.and_eq_true, Bool.not_eq_true', bne_iff_ne] at hc
  obtain ⟨⟨⟨⟨h1, h2⟩, h3⟩, h4⟩, h5⟩ := hc
  have hw : ¬ isAsciiWhitespace c = true := fun hw => by
    rw [(isSpace_of_white hw).1] at h1
    cases h1
  have hE : ¬ ((c = 'E' ∨ c = 'e') ∧ cs.head? = some '\'') := by
    intro h
    rcases h.1 with h | h <;> (rw [h] at h2; cases h2)
  have hi : ¬ (c.isAlpha ∨ c = '_' ∨ 0x80 ≤ c.toNat) := by
    simpa only [isIdentStart, Bool.or_eq_false_iff, beq_eq_false_iff_ne, decide_eq_false_iff_not,
      not_or, Bool.not_eq_true, and_assoc] using h2
  unfold lexStep
  rw [if_neg hw, if_neg hd, if_neg hs, if_neg (fun h => h.elim h3 hE), if_neg h4,
    if_neg (fun h => h5 h.1), if_neg h5, if_neg hi]

theorem lexStep_dot : lexStep std '.' cs = .ok (some (.punct ['.']), 0) := by
  rw [lexStep_mark (by decide) (by simp) (by simp), if_neg (by simp)]

/-- A digit is a token for the proxy, and none that a call has. -/
theorem lexStep_digit (hc : c.isDigit = true) :
    lexStep std c cs = .ok (some (.punct [c]), 0) ∧ key (.punct [c]) = false := by
  have h : 48 ≤ c.toNat ∧ c.toNat ≤ 57 := by
    simpa [Char.isDigit, UInt32.le_iff_toNat_le] using hc
  have hall : (List.range 10).all (fun n => isMark (Char.ofNat (48 + n)) &&
      !key (.punct [Char.ofNat (48 + n)])) = true := by decide +kernel
  have hd := all_eq_true.mp hall (c.toNat - 48) (mem_range.mpr (by omega))
  rw [show 48 + (c.toNat - 48) = c.toNat by omega, Char.ofNat_toNat, Bool.and_eq_true,
    Bool.not_eq_true'] at hd
  have hne : ∀ d, d.isDigit = false → c ≠ d := ne_of_class hc
  refine ⟨?_, hd.2⟩
  rw [lexStep_mark hd.1 (fun h => hne '-' (by decide) h.1) fun h => hne '/' (by decide) h.1]
  exact if_neg fun h => h.elim (fun h => hne ':' (by decide) h.1) fun h => hne '=' (by decide) h.1

theorem key_of_isOpChar (hc : isOpChar c = true) : key (.punct [c]) = false := by
  simp only [isOpChar, Bool.or_eq_true, decide_eq_true_eq, beq_iff_eq] at hc
  have hall : (Char.ofNat 0x60 :: ['~', '!', '@', '#', '^', '&', '|', '?', '+', '-', '*', '/',
      '%', '<', '>', '=']).all (fun d => !key (.punct [d])) = true := by decide +kernel
  simp only [List.all_eq_true, Bool.not_eq_true'] at hall
  rcases hc with hc | hc
  · exact hall c (mem_cons_of_mem _ hc)
  · rw [← Char.ofNat_toNat c, hc]
    exact hall _ mem_cons_self

/-- Both count the comments that are open. -/
theorem lexComment_sync {depth : Nat} {r : Chars} (h : lexComment (depth + 1) cs = .ok r) :
    blockComment depth cs = some r := by
  fun_induction blockComment depth cs with
  | case1 => cases h
  | case2 cs =>
    cases h
    rfl
  | case3 depth cs hd ih =>
    rw [lexComment, Nat.add_sub_cancel, if_neg hd] at h
    refine ih ?_
    rw [Nat.sub_add_cancel (Nat.pos_of_ne_zero hd)]
    exact h
  | case4 depth cs ih => exact ih h
  | case5 depth c cs h1 h2 ih =>
    rw [lexComment] at h
    · exact ih h
    · exact h2
    · exact h1

/-- A quoted identifier is the server's. -/
theorem lexQuoted_sync {name r : Chars} (h : lexQuoted cs = .ok (name, r)) :
    identBody cs = some (name, r) := by
  fun_induction identBody cs generalizing name with
  | case1 => cases h
  | case2 cs ih =>
    obtain ⟨⟨n, r'⟩, h1, h2⟩ := map_eq_ok (show (lexQuoted cs).map _ = _ from h)
    cases h2
    rw [ih h1]
    rfl
  | case3 cs hne =>
    rw [lexQuoted, if_pos rfl] at h
    · cases h
      rfl
    · exact hne
  | case4 c cs hc ih =>
    unfold lexQuoted at h
    rw [if_neg hc] at h
    obtain ⟨⟨n, r'⟩, h1, h2⟩ := map_eq_ok h
    cases h2
    rw [ih h1]
    rfl

/-- The library's search is the same one. -/
theorem findTag_eq (tag : Chars) : ∀ cs, findTag tag cs = dollarBody tag cs
  | [] => rfl
  | c :: cs => by rw [findTag, dollarBody, findTag_eq tag cs]

/-- The tag the proxy finds is the server's. -/
theorem tagOf_eq (h : (cs.drop (cs.takeWhile isTagChar).length).head? = some '$') :
    tagOf cs = cs.takeWhile isTagChar := by
  have hin : ∀ d ∈ cs.takeWhile isTagChar, (isIdentCont d && d != '$') = true := by
    intro d hd
    have hd := all_eq_true.mp all_takeWhile d hd
    rw [Bool.and_eq_true, bne_iff_ne, ← isIdentByte_eq, isIdentByte, hd]
    exact ⟨rfl, ne_of_class hd '$' rfl⟩
  obtain ⟨rest, hrest⟩ := head?_eq_some_iff.mp h
  have hcs := takeWhile_append_dropWhile (p := isTagChar) (l := cs)
  rw [drop_length_takeWhile] at hrest
  unfold tagOf
  conv_lhs => rw [← hcs, hrest, takeWhile_append_of_pos hin]
  rw [takeWhile_cons_of_neg (by decide), append_nil]

/-- The letter before a quote or an ampersand: no name of a call has one letter. -/
theorem foreign_letter {a b d : Char} (hc : c = a ∨ c = b) (ha : isIdentStart a = true)
    (hb : isIdentStart b = true) (hq : ¬ ((c = 'E' ∨ c = 'e') ∧ cs.head? = some '\''))
    (hd : cs.head? = some d) (hcont : isIdentCont d = false)
    (hL : (lexer σ.scs).run total (c :: cs) = .ok L) : Foreign (tokens L) := by
  have hstart : isIdentStart c = true := by
    rcases hc with rfl | rfl
    · exact ha
    · exact hb
  obtain ⟨cs', rfl⟩ := List.head?_eq_some_iff.mp hd
  refine foreign_dull (lexStep_word hstart hq) (Bool.eq_false_iff.mpr fun h => ?_) hL
  rw [takeWhile_cons_of_neg (by rw [hcont]; decide)] at h
  have hlen : ∀ s ∈ callNames, s.length ≠ 1 := by decide
  exact hlen _ (contains_iff_mem.mp h) rfl

/-- A dot and a mark. -/
theorem foreign_dot {d : Char} (hs : lexStep σ.scs d cs = .ok (some (.punct [d]), 0))
    (hL : (lexer σ.scs).run total ('.' :: d :: cs) = .ok L) : Foreign (tokens L) := by
  obtain ⟨L', hr, e⟩ := run_after lexStep_dot hL
  obtain ⟨L'', -, e'⟩ := run_after hs hr
  rw [e, e']
  exact .dot fun s e => by cases e

theorem head?_of_take {a b : Char} (h : cs.take 2 = [a, b]) : cs.head? = some a := by
  rw [← take_append_drop 2 cs, h]
  rfl

/-! ## 4. Side by side -/

/-- One round of the server's scanner. -/
theorem beside {t : Option Token} (h : lexeme σ c cs = some (t, n))
    (hL : (lexer σ.scs).run total (c :: cs) = .ok L) : Beside σ total cs n t (tokens L) := by
  unfold lexeme at h
  rcases ite_eq_iff.mp h with ⟨h1, h⟩ | ⟨h1, h⟩
  · cases h
    rcases lexStep_space h1 cs with hs | hs
    · exact beside_none hs hL
    · exact .other (foreign_dull hs rfl hL)
  rcases ite_eq_iff.mp h with ⟨h2, h⟩ | ⟨h2, h⟩
  · cases h
    obtain ⟨rfl, hd⟩ := h2
    obtain ⟨cs', rfl⟩ := List.head?_eq_some_iff.mp hd
    exact beside_none (lexStep_lineComment cs') hL
  rcases ite_eq_iff.mp h with ⟨h3, h⟩ | ⟨h3, h⟩
  · obtain ⟨r, hr, h⟩ := map_eq_some_iff.mp h
    cases h
    obtain ⟨rfl, hd⟩ := h3
    obtain ⟨cs', rfl⟩ := List.head?_eq_some_iff.mp hd
    obtain ⟨t', n', L', hs, hrun, rfl⟩ := Scanner.run_inv hL
    obtain ⟨r', hr', e⟩ := map_eq_ok (show (lexComment 1 cs').map _ = _ from hs)
    cases e
    rw [tail_cons, lexComment_sync hr'] at hr
    cases hr
    exact .none hrun
  rcases ite_eq_iff.mp h with ⟨h4, h⟩ | ⟨h4, h⟩
  · obtain ⟨v, m, u, hv, hu, rfl, rfl⟩ := stringLexeme_some h
    exact beside_constant (.inl h4) (by rw [if_pos h4]) (by rw [h4]; rfl) hv hu hL
  rcases ite_eq_iff.mp h with ⟨h5, h⟩ | ⟨h5, h⟩
  · obtain ⟨v, m, u, hv, hu, rfl, rfl⟩ := stringLexeme_some h
    exact beside_constant (.inr h5) (by rw [if_neg h4]) (by rw [bne_iff_ne.mpr h4]; rfl) hv hu hL
  -- the other constants start with a letter that is an identifier for the proxy
  rcases ite_eq_iff.mp h with ⟨h6, -⟩ | ⟨-, h⟩
  · exact .other (foreign_letter h6.1 (by decide) (by decide) h5 h6.2 (by decide) hL)
  rcases ite_eq_iff.mp h with ⟨h7, -⟩ | ⟨-, h⟩
  · exact .other (foreign_letter h7.1 (by decide) (by decide) h5 h7.2 (by decide) hL)
  rcases ite_eq_iff.mp h with ⟨h8, -⟩ | ⟨-, h⟩
  · exact .other (foreign_letter h8.1 (by decide) (by decide) h5 h8.2 (by decide) hL)
  rcases ite_eq_iff.mp h with ⟨h9, -⟩ | ⟨-, h⟩
  · exact .other (foreign_letter h9.1 (by decide) (by decide) h5 (head?_of_take h9.2) (by decide)
      hL)
  rcases ite_eq_iff.mp h with ⟨h10, -⟩ | ⟨-, h⟩
  · exact .other (foreign_letter h10.1 (by decide) (by decide) h5 (head?_of_take h10.2)
      (by decide) hL)
  rcases ite_eq_iff.mp h with ⟨h11, h⟩ | ⟨h11, h⟩
  · obtain ⟨r, hr, h⟩ := bind_eq_some_iff.mp h
    split at h
    · cases h
    · cases h
      subst h11
      obtain ⟨t', n', L', hs, hrun, rfl⟩ := Scanner.run_inv hL
      obtain ⟨r', hr', e⟩ := map_eq_ok (show (lexQuoted cs).map _ = _ from hs)
      rw [lexQuoted_sync hr'] at hr
      cases hr
      cases e
      exact .one (.inr rfl) hrun
  rcases ite_eq_iff.mp h with ⟨h12, h⟩ | ⟨h12, h⟩
  · cases h
    exact beside_one (lexStep_word h12 h5) (.inl rfl) hL
  rcases ite_eq_iff.mp h with ⟨h13 | ⟨rfl, hd⟩, -⟩ | ⟨-, h⟩
  · obtain ⟨hs, hk⟩ := @lexStep_digit cs c σ.scs h13
    exact .other (foreign_dull hs hk hL)
  · obtain ⟨d, hd, hdigit⟩ := (any_eq_true _ _).mp hd
    obtain ⟨cs', rfl⟩ := List.head?_eq_some_iff.mp hd
    exact .other (foreign_dot (lexStep_digit hdigit).1 hL)
  rcases ite_eq_iff.mp h with ⟨h14, h⟩ | ⟨h14, h⟩
  · dsimp only at h
    split at h
    · cases h
    · cases h
      obtain ⟨rfl, hd⟩ := h14
      obtain ⟨t', n', L', hs, hrun, rfl⟩ := Scanner.run_inv hL
      unfold lexer lexStep at hs
      rw [if_neg (by decide), if_neg (by simp), if_neg (by simp), if_neg (by simp),
        if_neg (by decide), if_pos ⟨rfl, hd⟩] at hs
      dsimp only at hs
      split at hs
      · cases hs
        exact .one ⟨_, rfl, rfl⟩ hrun
      · cases hs
  rcases ite_eq_iff.mp h with ⟨h15, h⟩ | ⟨h15, h⟩
  · have hd : ¬ cs.head?.any Char.isDigit = true := fun hd => h14 ⟨h15, hd⟩
    subst h15
    obtain ⟨t', n', L', hs, hrun, rfl⟩ := Scanner.run_inv hL
    unfold lexer lexStep at hs
    rw [if_neg (by decide), if_neg (by simp), if_neg (by simp), if_neg (by simp),
      if_neg (by decide), if_neg fun h' => hd h'.2, if_pos rfl] at hs
    dsimp only at hs
    split at hs
    · cases hs
    · rename_i htag
      have htag := not_not.mp htag
      have heq := tagOf_eq htag
      rw [← heq] at htag hs
      rw [if_pos htag] at h
      obtain ⟨r, hr, h⟩ := map_eq_some_iff.mp h
      rw [findTag_eq, hr] at hs
      cases h
      cases hs
      exact .one ⟨_, rfl, fun _ => rfl⟩ hrun
  have hmark : isMark c = true := by
    simp only [isMark, Bool.and_eq_true, Bool.not_eq_true', bne_iff_ne]
    exact ⟨⟨⟨⟨Bool.not_eq_true _ ▸ h1, Bool.not_eq_true _ ▸ h12⟩, h4⟩, h11⟩, h15⟩
  have hstep : lexStep σ.scs c cs = _ := lexStep_mark hmark h2 h3
  rcases ite_eq_iff.mp h with ⟨h16, h⟩ | ⟨h16, h⟩
  · cases h
    obtain ⟨cs', rfl⟩ := List.head?_eq_some_iff.mp h16.2
    rw [if_pos (.inl h16)] at hstep
    refine beside_one hstep (.inr ⟨?_, rfl⟩) hL
    rw [h16.1]
    rfl
  have hsingle : ¬ (c = '=' ∧ cs.head? = some '>') →
      lexStep σ.scs c cs = .ok (some (.punct [c]), 0) :=
    fun harrow => hstep.trans (if_neg (not_or.mpr ⟨h16, harrow⟩))
  rcases ite_eq_iff.mp h with ⟨h17, -⟩ | ⟨-, h⟩
  · obtain ⟨rfl, -⟩ := h17
    exact .other (foreign_dull (hsingle (by simp)) rfl hL)
  rcases ite_eq_iff.mp h with ⟨h18, -⟩ | ⟨-, h⟩
  · obtain ⟨rfl, hd⟩ := h18
    obtain ⟨cs', rfl⟩ := List.head?_eq_some_iff.mp hd
    exact .other (foreign_dot lexStep_dot hL)
  rcases ite_eq_iff.mp h with ⟨h19, -⟩ | ⟨h19, h⟩
  · by_cases harrow : c = '=' ∧ cs.head? = some '>'
    · rw [if_pos (.inr harrow)] at hstep
      obtain ⟨rfl, hd⟩ := harrow
      obtain ⟨cs', rfl⟩ := List.head?_eq_some_iff.mp hd
      exact .other (foreign_dull hstep rfl hL)
    · exact .other (foreign_dull (hsingle harrow) (key_of_isOpChar h19) hL)
  cases h
  refine beside_one (hsingle fun harrow => ?_) (.inl ⟨c, rfl, rfl⟩) hL
  rw [harrow.1] at h19
  exact h19 rfl

/-- The server's tokens and the proxy's from one place on, side by side up to the first of the
    proxy's that do not belong to a call. -/
inductive Paired (vt : Bool) : List Token → List Tok → Prop where
  | nil : Paired vt [] []
  | one {t : Token} {x : Tok} {P : List Token} {L : List Tok} (h : Same vt t x)
      (hP : Paired vt P L) : Paired vt (t :: P) (x :: L)
  | other {P : List Token} {L : List Tok} (h : Foreign L) : Paired vt P L

theorem paired {P : List (Span Token)} (hL : (lexer σ.scs).run total cs = .ok L)
    (hP : (flex σ).run total cs = .ok P) : Paired σ.vt (tokens P) (tokens L) := by
  induction hn : cs.length using Nat.strongRecOn generalizing cs L P with
  | ind n ih =>
    subst hn
    cases cs with
    | nil =>
      rw [Scanner.run_nil] at hL hP
      cases hL
      cases hP
      exact .nil
    | cons c cs =>
      obtain ⟨t, n, P', hstep, hP', rfl⟩ := Scanner.run_inv hP
      have hlen : (cs.drop n).length < (c :: cs).length :=
        Nat.lt_succ_of_le (drop_suffix n cs).length_le
      generalize hl : tokens L = l
      have hb := beside (flex_some hstep) hL
      rw [hl] at hb
      cases hb with
      | one h hL' => exact .one h (ih _ hlen hL' hP' rfl)
      | none hL' => exact ih _ hlen hL' hP' rfl
      | other h => exact .other h

end

end Postvec.Rewrite
