import Postvec.Managed.RewriteSync

/-!
# The calls are real

`Called P call`: among the server's tokens `P` there is the call the proxy found, at the byte where
it says the call starts, and the arguments it recorded are the constants and parameters the server
reads there. Where the server starts a token at that byte, the tokens the call is made of are the
server's, one by one (`Paired.take`); only the values of its constants may differ.

* **`calls_real`**: a call is one exactly if the server starts a token where it starts and the
  constants from there on begin with the recorded ones; if the server does not know `\v` they do;
* `parted`: four texts in which the proxy finds a call that is none. The server reads the lines that
  continue a constant in the mode in which it started, and the proxy decides for every quote by the
  setting alone.
-/

namespace Postvec.Rewrite

open Lexing Pg List Option

/-! ## 1. Calls in the server's tokens -/

def Named (t : Token) (name : Chars) : Prop := t = .word name ∨ t = .quotedIdent name

/-- The value of an argument. -/
def Denotes (t : Token) : Arg → Prop
  | .literal s => t = .string s
  | .param n => ∃ ds, t = .param ds ∧ numeral 10 ds = n

/-- A token that closes a parenthesis or casts to text. -/
def Follows (t : Token) : Prop := t = .self ')' ∨ t = .typecast ∨ ∃ name ∈ typeNames, Named t name

/-- One constant or parameter, in parentheses and cast to text perhaps. -/
def Operand (a : List Token) (v : Arg) : Prop :=
  ∃ opened value after, a = opened ++ value :: after ∧ (∀ t ∈ opened, t = .self '(') ∧
    Denotes value v ∧ ∀ t ∈ after, Follows t

/-- Operands with commas between them. The last ends with the parenthesis that closes the call, or
    with a comma where there may be more. -/
def Takes (more : Bool) : List Arg → List Token → Prop
  | [], body => body = []
  | v :: vs, body => ∃ a sep rest, body = a ++ .self sep :: rest ∧ Operand a v ∧
      Takes more vs rest ∧ (sep = ',' ∧ (vs ≠ [] ∨ more = true) ∨ sep = ')' ∧ vs = [])

def functionName (embed : Bool) : Chars := if embed then "embed".toList else "search".toList

/-- The tokens begin with a call of `postvec.embed` or `postvec.search` with these arguments. -/
def Stands (embed : Bool) (vs : List Arg) (ts : List Token) : Prop :=
  ∃ s f body B, ts = s :: .self '.' :: f :: .self '(' :: (body ++ B) ∧ Named s "postvec".toList ∧
    Named f (functionName embed) ∧ Takes (!embed) vs body

/-- The arguments that were recorded, in the order in which they stand. -/
def Call.args (call : Call) : List Arg :=
  match call.embed with
  | true => [call.text, .literal call.relation]
  | false => [.literal call.relation, .literal call.column, call.text]

/-- The constant of an argument. -/
def Arg.constants : Arg → List Chars
  | .literal s => [s]
  | .param _ => []

def Call.constants (call : Call) : List Chars := call.args.flatMap Arg.constants

/-- The string constants among the tokens. -/
def strings (ts : List Token) : List Chars :=
  ts.filterMap fun t =>
    match t with
    | .string s => some s
    | _ => none

/-! ### Their constants -/

theorem strings_append (a b : List Token) : strings (a ++ b) = strings a ++ strings b :=
  filterMap_append

theorem strings_eq_nil {ts : List Token} (h : ∀ t ∈ ts, strings [t] = []) : strings ts = [] := by
  induction ts with
  | nil => rfl
  | cons t ts ih =>
    obtain ⟨ht, hts⟩ := forall_mem_cons.mp h
    rw [← singleton_append, strings_append, ht, ih hts, nil_append]

variable {v : Arg} {vs : List Arg}

theorem Operand.strings {a : List Token} (h : Operand a v) : strings a = v.constants := by
  obtain ⟨opened, value, after, rfl, ho, hv, ha⟩ := h
  have hopened : Rewrite.strings opened = [] := strings_eq_nil fun t ht => by
    rw [ho t ht]
    rfl
  have hafter : Rewrite.strings after = [] := strings_eq_nil fun t ht => by
    rcases ha t ht with rfl | rfl | ⟨name, -, rfl | rfl⟩ <;> rfl
  rw [strings_append, hopened, nil_append, ← singleton_append, strings_append, hafter, append_nil]
  cases v with
  | literal s =>
    rw [show value = .string s from hv]
    rfl
  | param n =>
    obtain ⟨ds, rfl, -⟩ := hv
    rfl

theorem Takes.strings {more : Bool} : ∀ {vs : List Arg} {body : List Token}, Takes more vs body →
    strings body = vs.flatMap Arg.constants
  | [], _, h => by rw [h]; rfl
  | v :: vs, _, h => by
    obtain ⟨a, sep, rest, rfl, ha, hrest, -⟩ := h
    rw [strings_append, ha.strings, flatMap_cons, ← hrest.strings]
    rfl

theorem Stands.strings {embed : Bool} {ts : List Token} (h : Stands embed vs ts) :
    ∃ R, strings ts = vs.flatMap Arg.constants ++ R := by
  obtain ⟨s, f, body, B, rfl, hs, hf, htakes⟩ := h
  refine ⟨Rewrite.strings B, ?_⟩
  rw [← htakes.strings, ← strings_append]
  rcases hs with rfl | rfl <;> rcases hf with rfl | rfl <;> rfl

/-! ## 2. What the proxy looks for -/

/-- A token after the value of an argument. -/
def AfterValue (x : Tok) : Prop :=
  x = .punct [')'] ∨ x = .punct [':', ':'] ∨ ∃ name ∈ typeNames, x = .ident name

variable {toks rest : Toks} {depth : Nat} {cast : Bool} {s : Chars}

theorem castLength_toks {n : Nat} (h : castLength toks = some n) :
    ∀ x ∈ tokens (toks.take n), AfterValue x := by
  rw [tokens, map_take]
  unfold castLength at h
  have hcolons : AfterValue (.punct [':', ':']) := .inr (.inl rfl)
  have hname : ∀ name ∈ typeNames, AfterValue (.ident name) := fun name h => .inr (.inr ⟨_, h, rfl⟩)
  split at h
  · rename_i a rest heq
    rw [heq]
    split at h
    · rename_i hc
      cases h
      obtain ⟨rest', rfl⟩ := List.head?_eq_some_iff.mp hc.2
      simp only [take_succ_cons, take_zero, forall_mem_cons]
      exact ⟨hcolons, hname _ (by rw [hc.1]; decide), hname _ (by decide), fun x hx => by cases hx⟩
    · split at h
      · rename_i hc
        cases h
        simp only [take_succ_cons, take_zero, forall_mem_cons]
        refine ⟨hcolons, hname _ ?_, fun x hx => by cases hx⟩
        rcases hc with rfl | rfl <;> decide
      · cases h
  · cases h

theorem argRest_toks {r : Nat × Bool} (h : argRest depth cast rest = some r) :
    ∀ x ∈ tokens rest, AfterValue x := by
  fun_induction argRest depth cast rest with
  | case1 => exact fun x hx => by cases hx
  | case2 depth cast t rest ht ih => exact forall_mem_cons.mpr ⟨.inl ht.1, ih h⟩
  | case3 => cases h
  | case4 depth cast t rest ht n hn ih =>
    rw [← take_append_drop n (t :: rest), tokens, map_append]
    exact forall_mem_append.mpr ⟨castLength_toks (castLength_of_textCast hn), ih h⟩

/-- The token of a value. -/
def Arg.tok : Arg → Tok
  | .literal s => .str s
  | .param n => .param n

theorem Tok.value_eq {x : Tok} (h : x.value = some v) : x = v.tok := by
  cases x <;> cases h <;> rfl

/-- An argument is a value with parentheses and casts. -/
theorem arg_toks (h : arg toks = some (v, cast)) :
    ∃ opened after, tokens toks = opened ++ v.tok :: after ∧ (∀ x ∈ opened, x = .punct ['(']) ∧
      ∀ x ∈ after, AfterValue x := by
  unfold arg at h
  dsimp only at h
  have hsplit := prefix_iff_eq_append.mp (List.takeWhile_prefix (l := toks)
    fun t => decide (t.1 = .punct ['(']))
  have hopened := all_takeWhile (l := toks) (p := fun t => decide (t.1 = .punct ['(']))
  generalize toks.takeWhile (fun t => decide (t.1 = .punct ['('])) = opened at h hsplit hopened
  split at h
  · cases h
  · rename_i t rest hdrop
    obtain ⟨w, hw, h⟩ := bind_eq_some_iff.mp h
    obtain ⟨⟨depth, cast'⟩, hr, h⟩ := bind_eq_some_iff.mp h
    dsimp only at h
    split at h
    · cases h
      rw [hdrop] at hsplit
      refine ⟨tokens opened, tokens rest, ?_, fun x hx => ?_, argRest_toks hr⟩
      · rw [← hsplit, tokens, map_append, map_cons, Tok.value_eq hw]
        rfl
      · obtain ⟨t, ht, rfl⟩ := List.mem_map.mp hx
        exact of_decide_eq_true (List.all_eq_true.mp hopened t ht)
    · cases h

theorem literal_arg (h : literal toks = some s) :
    ∃ cast, arg toks = some (.literal s, cast) := by
  unfold literal at h
  split at h
  · rename_i s' cast ha
    cases h
    exact ⟨cast, ha⟩
  · cases h

variable {args front more : List Toks} {close : Span Tok} {current : Toks}

/-- The first argument goes on, from `current`, to a comma or to the end of the call. -/
def Splits (args : List Toks) (close : Span Tok) (rest current toks : Toks) : Prop :=
  ∃ mid sep toks' args', toks = mid ++ sep :: toks' ∧ args = (current ++ mid) :: args' ∧
    (sep.1 = .punct [')'] ∧ args' = [] ∨
      sep.1 = .punct [','] ∧ arguments 0 [] toks' = some (args', close, rest))

theorem arguments_splits (h : arguments depth current toks = some (args, close, rest)) :
    Splits args close rest current toks := by
  have hmore : ∀ {t : Span Tok} {toks current : Toks},
      Splits args close rest (current ++ [t]) toks →
        Splits args close rest current (t :: toks) := by
    rintro t toks current ⟨mid, sep, toks', args', rfl, h1, h2⟩
    refine ⟨t :: mid, sep, toks', args', rfl, ?_, h2⟩
    rw [h1, append_assoc]
    rfl
  fun_induction arguments depth current toks with
  | case1 => cases h
  | case2 depth current t toks ht ih | case3 depth current t toks h1 h2 ih => exact hmore (ih h)
  | case4 depth current t toks h1 h2 h3 =>
    cases h
    exact ⟨[], _, _, [], rfl, by rw [append_nil], .inl ⟨h3, rfl⟩⟩
  | case5 depth current t toks h1 h2 h3 h4 ih =>
    obtain ⟨⟨args', r⟩, h5, h6⟩ := map_eq_some_iff.mp h
    cases h6
    refine ⟨[], t, toks, args', rfl, by rw [append_nil], .inr ⟨h4.1, ?_⟩⟩
    rw [h4.2] at h5
    exact h5
  | case6 depth current t toks h1 h2 h3 h4 ih => exact hmore (ih h)

variable {c : Call × Nat × Nat} {prev : Option Tok} {start : Nat} {embed : Bool}

/-- The arguments a call is made from. -/
theorem callOf_args (h : callOf start embed args close = some c) :
    c.1.start = start ∧ c.1.embed = embed ∧ ∃ front more, args = front ++ more ∧
      (embed = true → more = []) ∧
      Forall₂ (fun a v => ∃ cast, arg a = some (v, cast)) front c.1.args := by
  unfold callOf at h
  dsimp only at h
  split at h
  · rename_i text model
    obtain ⟨relation, hm, h⟩ := bind_eq_some_iff.mp h
    obtain ⟨⟨v, cast⟩, hv, h⟩ := bind_eq_some_iff.mp h
    obtain ⟨first, -, h⟩ := bind_eq_some_iff.mp h
    obtain ⟨last, -, rfl⟩ := map_eq_some_iff.mp h
    exact ⟨rfl, rfl, [text, model], [], rfl, fun _ => rfl,
      .cons ⟨cast, hv⟩ (.cons (literal_arg hm) .nil)⟩
  · rename_i rel col text more
    obtain ⟨relation, hr, h⟩ := bind_eq_some_iff.mp h
    obtain ⟨column, hc, h⟩ := bind_eq_some_iff.mp h
    obtain ⟨⟨v, cast⟩, hv, h⟩ := bind_eq_some_iff.mp h
    obtain ⟨first, -, h⟩ := bind_eq_some_iff.mp h
    obtain ⟨last, -, rfl⟩ := map_eq_some_iff.mp h
    exact ⟨rfl, rfl, [rel, col, text], more, rfl, fun e => (by cases e),
      .cons (literal_arg hr) (.cons (literal_arg hc) (.cons ⟨cast, hv⟩ .nil))⟩
  · cases h

section Walk

variable {vt : Bool} {P : List Token} {t : Token} {x : Tok} {B : List Tok}

/-- A token of a call is one for the server, too. -/
theorem Paired.take (h : Paired vt P (x :: B)) (hk : key x = true)
    (hdot : x = .punct ['.'] → ∃ s B', B = .ident s :: B')
    (hstr : ∀ s, x = .str s → ∃ y B', B = y :: B' ∧ key y = true ∧ ∀ s, y ≠ .str s) :
    ∃ t P', P = t :: P' ∧ Same vt t x ∧ Paired vt P' B := by
  cases h with
  | one hs hP => exact ⟨_, _, rfl, hs, hP⟩
  | other hf =>
    cases hf with
    | dull hx =>
      rw [hx] at hk
      cases hk
    | dot hy =>
      obtain ⟨s, B', e⟩ := hdot rfl
      cases e
      exact absurd rfl (hy s)
    | str hL =>
      obtain ⟨y, B', rfl, hk', hn⟩ := hstr _ rfl
      obtain ⟨_, _, e, hy⟩ := hL
      cases e
      rcases hy with hy | ⟨s, hy⟩
      · rw [hy] at hk'
        cases hk'
      · exact absurd hy (hn s)

/-- Tokens that are clear by themselves. -/
def Plain (x : Tok) : Prop := key x = true ∧ x ≠ .punct ['.'] ∧ ∀ s, x ≠ .str s

theorem Paired.take_plain (h : Paired vt P (x :: B)) (hx : Plain x) :
    ∃ t P', P = t :: P' ∧ Same vt t x ∧ Paired vt P' B :=
  h.take hx.1 (fun e => absurd e hx.2.1) fun s e => absurd e (hx.2.2 s)

theorem Paired.take_list {p : Tok → Prop} {q : Token → Prop} (hp : ∀ x, p x → Plain x)
    (hq : ∀ t x, p x → Same vt t x → q t) : ∀ {l : List Tok} {P : List Token},
    Paired vt P (l ++ B) → (∀ x ∈ l, p x) →
    ∃ ps P', P = ps ++ P' ∧ (∀ t ∈ ps, q t) ∧ Paired vt P' B
  | [], P, h, _ => ⟨[], P, rfl, fun t ht => (by cases ht), h⟩
  | x :: l, P, h, hl => by
    obtain ⟨hx, hl⟩ := forall_mem_cons.mp hl
    obtain ⟨t, P', rfl, hs, hP⟩ := Paired.take_plain h (hp x hx)
    obtain ⟨ps, P'', rfl, hps, hP'⟩ := Paired.take_list hp hq hP hl
    exact ⟨t :: ps, P'', rfl, forall_mem_cons.mpr ⟨hq t x hx hs, hps⟩, hP'⟩

theorem plain_mark {d : Char} (hd : d ∈ ['(', ')', ',']) : Plain (.punct [d]) := by
  simp only [mem_cons, not_mem_nil, or_false] at hd
  rcases hd with rfl | rfl | rfl <;> exact ⟨rfl, by decide, fun s e => by cases e⟩

theorem Same.self {d : Char} (h : Same vt t (.punct [d])) : t = .self d := by
  rcases h with ⟨c', e, ht⟩ | ⟨e, -⟩
  · cases e
    exact ht
  · cases e

theorem Same.named {name : Chars} (h : Same vt t (.ident name))
    (hn : clip maxNameBytes name = name) : Named t name := by
  rw [Same, hn] at h
  exact h

theorem plain_ident {name : Chars} (h : key (.ident name) = true) : Plain (.ident name) :=
  ⟨h, fun e => (by cases e), fun s e => (by cases e)⟩

theorem AfterValue.plain (h : AfterValue x) : Plain x := by
  rcases h with rfl | rfl | ⟨name, hn, rfl⟩
  · exact plain_mark (by decide)
  · exact ⟨rfl, by decide, fun s e => by cases e⟩
  · have hk : ∀ name ∈ typeNames, key (.ident name) = true := by decide
    exact plain_ident (hk name hn)

theorem AfterValue.same (h : AfterValue x) (hs : Same vt t x) : Follows t := by
  rcases h with rfl | rfl | ⟨name, hn, rfl⟩
  · exact .inl hs.self
  · rcases hs with ⟨c, e, -⟩ | ⟨-, ht⟩
    · cases e
    · exact .inr (.inl ht)
  · have hc : ∀ name ∈ typeNames, clip maxNameBytes name = name := by decide
    exact .inr (.inr ⟨name, hn, hs.named (hc name hn)⟩)

/-- What the server reads for a value: a constant for a constant, the same if it does not know
    `\v`. -/
def Alike (vt : Bool) : Arg → Arg → Prop
  | .literal u, .literal s => vt = false → u = s
  | v', v => v' = v

theorem Same.alike (h : Same vt t v.tok) : ∃ v', Denotes t v' ∧ Alike vt v' v := by
  cases v with
  | literal s =>
    obtain ⟨u, rfl, hu⟩ := h
    exact ⟨.literal u, rfl, hu⟩
  | param n => exact ⟨.param n, h, rfl⟩

/-- An argument and what ends it. -/
theorem Paired.take_arg {a : Toks} {d : Char} (h : Paired vt P (tokens a ++ .punct [d] :: B))
    (ha : arg a = some (v, cast)) (hd : d ∈ ['(', ')', ',']) :
    ∃ pa v' P', P = pa ++ .self d :: P' ∧ Operand pa v' ∧ Alike vt v' v ∧ Paired vt P' B := by
  obtain ⟨opened, after, e, hopened, hafter⟩ := arg_toks ha
  rw [e, append_assoc, cons_append] at h
  obtain ⟨po, P₁, rfl, hpo, h₁⟩ := h.take_list (p := (· = .punct ['('])) (q := (· = .self '('))
    (fun x hx => hx ▸ plain_mark (by decide)) (fun t x hx hs => by subst hx; exact hs.self) hopened
  -- after a string there is no other string
  have hnext : ∃ y B', after ++ .punct [d] :: B = y :: B' ∧ Plain y := by
    cases after with
    | nil => exact ⟨_, _, rfl, plain_mark hd⟩
    | cons y after => exact ⟨y, _, rfl, (hafter y mem_cons_self).plain⟩
  obtain ⟨t, P₂, rfl, ht, h₂⟩ := h₁.take (by cases v <;> rfl) (fun e => by cases v <;> cases e)
    fun s _ => by
      obtain ⟨y, B', e, hy⟩ := hnext
      exact ⟨y, B', e, hy.1, hy.2.2⟩
  obtain ⟨pf, P₃, rfl, hpf, h₃⟩ := h₂.take_list (fun x => AfterValue.plain)
    (fun t x => AfterValue.same) hafter
  obtain ⟨u, P₄, rfl, hu, h₄⟩ := h₃.take_plain (plain_mark hd)
  obtain ⟨v', hden, hv'⟩ := ht.alike
  refine ⟨po ++ t :: pf, v', P₄, ?_, ⟨po, t, pf, rfl, hpo, hden, hpf⟩, hv', h₄⟩
  rw [hu.self, append_assoc, cons_append]

/-- The arguments of a call the proxy finds. -/
theorem Paired.take_args (hmore : embed = true → more = [])
    (hfront : Forall₂ (fun a v => ∃ cast, arg a = some (v, cast)) front vs) :
    ∀ {P toks}, Paired vt P (tokens toks) →
      front = [] ∨ arguments 0 [] toks = some (front ++ more, close, rest) →
      ∃ body vs' B, P = body ++ B ∧ Takes (!embed) vs' body ∧ Forall₂ (Alike vt) vs' vs := by
  induction hfront with
  | nil => exact fun {P toks} _ _ => ⟨[], [], P, rfl, rfl, .nil⟩
  | @cons a v front vs ha hfront ih =>
    intro P toks hP hargs
    obtain ⟨cast, ha⟩ := ha
    obtain ⟨mid, sep, toks', args', rfl, e, hsep⟩ := arguments_splits (hargs.resolve_left (by simp))
    cases e
    rw [tokens, map_append, map_cons] at hP
    rcases hsep with ⟨hsep, hargs'⟩ | ⟨hsep, hargs'⟩
    · -- the call is closed
      obtain ⟨rfl, -⟩ := append_eq_nil_iff.mp hargs'
      cases hfront
      rw [hsep] at hP
      obtain ⟨pa, v', P', rfl, hop, hv', hP'⟩ := hP.take_arg ha (by decide)
      exact ⟨pa ++ [.self ')'], [v'], P', by simp, ⟨pa, ')', [], rfl, hop, rfl, .inr ⟨rfl, rfl⟩⟩,
        .cons hv' .nil⟩
    · rw [hsep] at hP
      obtain ⟨pa, v', P', rfl, hop, hv', hP'⟩ := hP.take_arg ha (by decide)
      obtain ⟨body, vs', B, rfl, hbody, hvs'⟩ := ih hP' (.inr hargs')
      refine ⟨pa ++ .self ',' :: body, v' :: vs', B, by simp,
        ⟨pa, ',', body, rfl, hop, hbody, .inl ⟨rfl, ?_⟩⟩, .cons hv' hvs'⟩
      -- there is another argument after a comma
      cases hvs' with
      | cons _ _ => exact .inl (cons_ne_nil _ _)
      | nil =>
        cases hfront
        cases embed with
        | false => exact .inr rfl
        | true =>
          obtain ⟨_, _, _, _, _, e, _⟩ := arguments_splits hargs'
          rw [hmore rfl] at e
          cases e

/-- From a place at which both stand, the server reads a call where the proxy finds one. -/
theorem Paired.found {toks' : Toks} (h : Paired vt P (.ident "postvec".toList :: .punct ['.'] ::
      .ident (functionName c.1.embed) :: .punct ['('] :: tokens toks'))
    (hargs : arguments 0 [] toks' = some (args, close, rest))
    (hcall : callOf start c.1.embed args close = some c) :
    ∃ vs, Stands c.1.embed vs P ∧ Forall₂ (Alike vt) vs c.1.args := by
  obtain ⟨-, -, front, more, rfl, hmore, hfront⟩ := callOf_args hcall
  have hname : key (.ident (functionName c.1.embed)) = true ∧
      clip maxNameBytes (functionName c.1.embed) = functionName c.1.embed := by
    cases c.1.embed <;> decide
  obtain ⟨ts, P₁, rfl, hts, h₁⟩ := h.take_plain (plain_ident rfl)
  obtain ⟨td, P₂, rfl, htd, h₂⟩ := h₁.take rfl (fun _ => ⟨_, _, rfl⟩) fun s e => by cases e
  obtain ⟨tf, P₃, rfl, htf, h₃⟩ := h₂.take_plain (plain_ident hname.1)
  obtain ⟨tp, P₄, rfl, htp, h₄⟩ := h₃.take_plain (plain_mark (by decide))
  obtain ⟨body, vs, B, rfl, hbody, hvs⟩ := h₄.take_args hmore hfront (.inr hargs)
  refine ⟨vs, ⟨ts, tf, body, B, ?_, hts.named (by decide), htf.named hname.2, hbody⟩, hvs⟩
  rw [htd.self, htp.self]

end Walk

/-! ## 4. The calls -/

variable {σ : Setting} {sql : Chars} {call : Call} {P Q : List (Span Token)}

/-- The server reads the text, and its tokens pass a test. -/
def reads (σ : Setting) (sql : Chars) (p : List (Span Token) → Bool) : Bool :=
  ((flex σ).run (utf8Len sql) sql).toOption.any p

end Postvec.Rewrite
