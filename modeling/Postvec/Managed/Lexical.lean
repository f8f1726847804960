import Postvec.Format.Grammar

/-!
# The words of a lexical query that score

`postvec._lexical_terms` finds the words of a query in the text form of its `tsquery`
(`Query.text`). A regular expression takes the quoted words, the `!` and the parentheses out of the
text, and a loop with a flag and a nesting depth keeps the words that no `!` reaches. PostgreSQL's
text form (`infix` in its `tsquery.c`) parenthesises an operand by the priority of the operator
above it, and a phrase also where it is the right operand of a phrase.

Result: `terms_exact`, the words kept are those outside the scope of every negation.

Left out: weights and prefix marks, which `websearch_to_tsquery` does not make, the privileges, the
frequencies looked up for the words, and that the result is sorted and without repetitions.
-/

namespace Postvec.Managed.Lexical

open List

/-! ## 1. Queries and their text -/

/-- A `tsquery`. No word is empty. -/
inductive Query where
  | word (c : Char) (cs : Text)
  | not (q : Query)
  | and (l r : Query)
  | or (l r : Query)
  | phrase (distance : Nat) (l r : Query)

def escape (c : Char) : Text := if c = '\'' ∨ c = '\\' then [c, c] else [c]

def quoted (w : Text) : Text := '\'' :: (w.flatMap escape ++ ['\''])

def parens (b : Bool) (t : Text) : Text :=
  if b then "( ".toList ++ t ++ " )".toList else t

def follows (distance : Nat) : Text :=
  if distance = 1 then " <-> ".toList else " <".toList ++ Nat.toDigits 10 distance ++ "> ".toList

/-- `infix`: `parent` is the priority of the operator above, `right` says that this is the right
    operand of a phrase. -/
def Query.text (parent : Nat) (right : Bool) : Query → Text
  | .word c cs => quoted (c :: cs)
  | .not q => parens (decide (4 < parent)) ('!' :: q.text 4 false)
  | .and l r => parens (decide (2 < parent)) (l.text 2 false ++ (" & ".toList ++ r.text 2 false))
  | .or l r => parens (decide (1 < parent)) (l.text 1 false ++ (" | ".toList ++ r.text 1 false))
  | .phrase d l r =>
    parens (decide (3 < parent) || right) (l.text 3 false ++ (follows d ++ r.text 3 true))

/-- The words outside the scope of every negation. -/
def Query.outside : Query → List Text
  | .word c cs => [c :: cs]
  | .not _ => []
  | .and l r | .or l r | .phrase _ l r => l.outside ++ r.outside

/-! ## 2. The loop -/

/-- The longest match of `(?:[^'\\]|\\.|'')*'`. -/
def closing : Text → Option Text
  | [] => none
  | [c] => if c = '\'' then some [c] else none
  | c :: d :: cs =>
    if c = '\'' then
      if d = '\'' then some (((closing cs).map fun m => c :: d :: m).getD [c]) else some [c]
    else if c = '\\' then (closing cs).map fun m => c :: d :: m
    else (closing (d :: cs)).map (c :: ·)

/-- The matches of `'(?:[^'\\]|\\.|'')*'|!|\(|\)` after the next `skip` characters. -/
def tokens : Nat → Text → List Text
  | _, [] => []
  | skip + 1, _ :: cs => tokens skip cs
  | 0, c :: cs =>
    if c = '\'' then
      match closing cs with
      | some m => (c :: m) :: tokens m.length cs
      | none => tokens 0 cs
    else if c = '!' ∨ c = '(' ∨ c = ')' then [c] :: tokens 0 cs
    else tokens 0 cs

/-- What `tsvector` reads after a quote. -/
def unquote : Text → Text
  | [] => []
  | [c] => if c = '\'' ∨ c = '\\' then [] else [c]
  | c :: d :: cs =>
    if c = '\'' then if d = '\'' then d :: unquote cs else []
    else if c = '\\' then d :: unquote cs
    else c :: unquote (d :: cs)

structure State where
  terms : List Text
  negate : Bool
  depth : Nat
deriving DecidableEq

def step (s : State) (token : Text) : State :=
  if token = ['!'] then { s with negate := true }
  else if token = ['('] then
    { s with
      depth := if s.negate || decide (0 < s.depth) then s.depth + 1 else s.depth
      negate := false }
  else if token = [')'] then { s with depth := s.depth - 1 }
  else
    { s with
      terms := if !s.negate && decide (s.depth = 0) then s.terms ++ [unquote token.tail]
        else s.terms
      negate := false }

/-- `_lexical_terms`, on the text of the query. -/
def lexicalTerms (text : Text) : List Text := ((tokens 0 text).foldl step ⟨[], false, 0⟩).terms

/-! ## 3. One word -/

theorem tokens_skip (m rest : Text) : tokens m.length (m ++ rest) = tokens 0 rest := by
  induction m with
  | nil => rfl
  | cons c m ih => exact ih

/-- A word ends at its own quote, and is read as it was. -/
theorem closing_quoted {rest : Text} (h : rest.head? ≠ some '\'') (w : Text) :
    closing (w.flatMap escape ++ '\'' :: rest) = some (w.flatMap escape ++ ['\'']) ∧
      unquote (w.flatMap escape ++ ['\'']) = w := by
  induction w with
  | nil =>
    cases rest with
    | nil => exact ⟨rfl, rfl⟩
    | cons d rest =>
      have hd : d ≠ '\'' := fun e => h (e ▸ rfl)
      exact ⟨by simp [closing, hd], rfl⟩
  | cons c w ih =>
    obtain ⟨hc, hu⟩ := ih
    rw [flatMap_cons, append_assoc, append_assoc]
    by_cases hq : c = '\''
    · subst hq
      simp [escape, closing, unquote, hc, hu]
    · by_cases hb : c = '\\'
      · subst hb
        simp [escape, closing, unquote, hc, hu]
      · have hone : escape c = [c] := by simp [escape, hq, hb]
        rw [hone, singleton_append, singleton_append]
        refine ⟨?_, ?_⟩
        · cases h : w.flatMap escape ++ '\'' :: rest <;> simp_all [closing]
        · cases h : w.flatMap escape ++ ['\''] <;> simp_all [unquote]

/-! ## 4. A query's text, from any state -/

/-- The loop over what is left of the text. -/
def run (s : State) (cs : Text) : State := (tokens 0 cs).foldl step s

/-- No token starts with it. -/
def Plain (c : Char) : Prop := c ≠ '\'' ∧ c ≠ '!' ∧ c ≠ '(' ∧ c ≠ ')'

/-- The state after a part of the text with the words `ts` outside its own negations. -/
def State.after (s : State) (ts : List Text) : State :=
  if s.negate || decide (0 < s.depth) then { s with negate := false }
  else { s with terms := s.terms ++ ts }

section

variable {s : State} {cs t rest : Text} {ts : List Text}

theorem run_plain (h : ∀ c ∈ t, Plain c) : run s (t ++ cs) = run s cs := by
  induction t with
  | nil => rfl
  | cons c t ih =>
    obtain ⟨⟨h₁, h₂, h₃, h₄⟩, ht⟩ := forall_mem_cons.mp h
    rw [← ih ht, cons_append]
    simp [run, tokens, h₁, h₂, h₃, h₄]

theorem run_word (c : Char) (w : Text) (h : rest.head? ≠ some '\'') :
    run s (quoted (c :: w) ++ rest) = run (s.after [c :: w]) rest := by
  obtain ⟨hc, hu⟩ := closing_quoted h (c :: w)
  have hlong : ∀ d, quoted (c :: w) ≠ [d] := fun d e => by
    have := congrArg List.length e
    simp [quoted] at this
  have hstep : step s (quoted (c :: w)) = s.after [c :: w] := by
    rw [step, if_neg (hlong _), if_neg (hlong _), if_neg (hlong _), State.after, quoted,
      tail_cons, hu]
    cases hn : s.negate <;> by_cases hd : s.depth = 0 <;> simp [hd, Nat.pos_iff_ne_zero]
  have htext : quoted (c :: w) ++ rest = '\'' :: ((c :: w).flatMap escape ++ '\'' :: rest) := by
    simp [quoted]
  have hskip := tokens_skip ((c :: w).flatMap escape ++ ['\'']) rest
  rw [append_assoc, singleton_append] at hskip
  rw [← hstep, run, htext, tokens, if_pos rfl, hc]
  dsimp only
  rw [hskip]
  rfl

theorem after_after (h : s.negate = false) (ts us : List Text) :
    (s.after ts).after us = s.after (ts ++ us) := by
  unfold State.after
  by_cases hd : 0 < s.depth <;> simp [h, hd]

theorem negate_after (ts : List Text) : (s.after ts).negate = false := by
  unfold State.after
  split
  · rfl
  · simp_all

/-- After a `!` nothing is added. -/
theorem run_not (h : run { s with negate := true } cs =
    run ({ s with negate := true }.after ts) rest) :
    run s ('!' :: cs) = run (s.after []) rest := by
  have hbang : run s ('!' :: cs) = run { s with negate := true } cs := by simp [run, tokens, step]
  have hafter : { s with negate := true }.after ts = s.after [] := by
    unfold State.after
    cases hn : s.negate <;> by_cases hd : 0 < s.depth <;> simp [hd, ← hn]
  rw [hbang, h, hafter]

/-- Parentheses around a part that adds `ts`. -/
theorem run_parens {b : Bool} (hr : rest.head? ≠ some '\'')
    (ht : ∀ s rest, rest.head? ≠ some '\'' → s.negate = false →
      run s (t ++ rest) = run (s.after ts) rest)
    (hb : s.negate = true → b = true) : run s (parens b t ++ rest) = run (s.after ts) rest := by
  cases b with
  | false => exact ht s rest hr (by simpa using hb)
  | true =>
    have hopen : run s (parens true t ++ rest) =
        run (step s ['(']) (t ++ (' ' :: ')' :: rest)) := by
      simp [parens, run, tokens]
    rw [hopen, ht _ _ (by simp) rfl]
    show run (step _ [')']) rest = _
    congr 1
    unfold State.after
    by_cases hn : s.negate = true <;> by_cases hd : 0 < s.depth <;> simp_all [step]

/-- The loop takes a query's text for the words outside its negations. A negated text is that of an
    operand of `!`. -/
def Query.Read (q : Query) : Prop :=
  ∀ (parent : Nat) (right : Bool) (s : State) (rest : Text), rest.head? ≠ some '\'' →
    (s.negate = true → parent = 4) →
      run s (q.text parent right ++ rest) = run (s.after q.outside) rest

/-- Two operands and what stands between them. -/
theorem run_both {l r : Query} {k : Nat} {b : Bool} {sep : Text} (hl : l.Read) (hr : r.Read)
    (hsep : ∀ c ∈ sep, Plain c) (hne : sep ≠ []) (s : State) (rest : Text)
    (hrest : rest.head? ≠ some '\'') (hs : s.negate = false) :
    run s (l.text k false ++ (sep ++ r.text k b) ++ rest) =
      run (s.after (l.outside ++ r.outside)) rest := by
  obtain ⟨d, ds, rfl⟩ := exists_cons_of_ne_nil hne
  have hd := (hsep d mem_cons_self).1
  rw [append_assoc, hl _ _ _ _ (by simpa using hd) (by simp [hs]), append_assoc,
    run_plain hsep, hr _ _ _ _ hrest (by simp [negate_after]), after_after hs]

theorem plain_follows (d : Nat) : ∀ c ∈ follows d, Plain c := by
  unfold follows
  split
  · simp [Plain]
  · intro c hc
    simp only [mem_append, or_assoc] at hc
    rcases hc with hc | hc | hc
    · revert c
      simp [Plain]
    · have := Nat.isDigit_of_mem_toDigits (by decide) (by decide) hc
      refine ⟨?_, ?_, ?_, ?_⟩ <;> (rintro rfl; simp at this)
    · revert c
      simp [Plain]

theorem read (q : Query) : q.Read := by
  induction q with
  | word c cs => exact fun _ _ _ _ hrest _ => run_word c cs hrest
  | not q ih =>
    intro parent right s rest hrest _
    have hnot : ∀ s rest, rest.head? ≠ some '\'' →
        run s ('!' :: q.text 4 false ++ rest) = run (s.after []) rest :=
      fun s rest hrest => run_not (ih _ _ _ _ hrest fun _ => rfl)
    by_cases hp : 4 < parent
    · exact run_parens hrest (fun s rest h _ => hnot s rest h) fun _ => by simpa using hp
    · rw [Query.text, decide_eq_false hp]
      exact hnot s rest hrest
  | and l r ihl ihr | or l r ihl ihr =>
    intro parent right s rest hrest hs
    exact run_parens hrest (run_both ihl ihr (by simp [Plain]) (by decide)) fun h => by simp [hs h]
  | phrase d l r ihl ihr =>
    intro parent right s rest hrest hs
    refine run_parens hrest (run_both ihl ihr (plain_follows d) ?_) fun h => by simp [hs h]
    unfold follows
    split <;> simp

end

/-- **The words kept are those outside the scope of every negation**, whatever characters they
    have. -/
theorem terms_exact (q : Query) : lexicalTerms (q.text 0 false) = q.outside := by
  have h := read q 0 false ⟨[], false, 0⟩ [] (by simp) (by simp)
  rw [append_nil] at h
  exact (congrArg State.terms h).trans (nil_append _)

end Postvec.Managed.Lexical
