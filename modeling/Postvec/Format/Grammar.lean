import Mathlib.Algebra.GroupWithZero.Nat
import Mathlib.Data.Finset.Card
import Mathlib.Data.List.Dedup

/-!
# Format templates: the grammar both scanners read

A format template is literal text with column references. Two hand-written scanners read it: the
worker's `parse_format` (`Format/Parse.lean`) and the database's `postvec._refs`
(`Format/Refs.lean`). This file says what both are supposed to read: `$name` takes the longest
identifier, `${...}` any name with `}}` for a brace inside it, `$$` is a dollar sign (`Reads`); and
both keep the columns of a reading at their first occurrences (`addRef`). Each scanner has its own
limits on length and on the number of columns.

A text is its list of characters (`Text`), its size is its UTF-8 size (`byteLen`).
-/

namespace Postvec

/-- A text, as its characters. -/
abbrev Text := List Char

/-- The equality test of texts, named once: membership in a list of texts is decided by it. -/
instance lawfulBEqText : LawfulBEq Text := inferInstance

/-- Size in bytes (`str::len`, `octet_length` in a UTF-8 database). -/
def byteLen (t : Text) : Nat := (t.map Char.utf8Size).sum

/-! ## 1. Readings -/

/-- `[A-Za-z_]` -/
def isNameStart (c : Char) : Bool := c.isAlpha || c == '_'

/-- `[A-Za-z0-9_]` -/
def isNameChar (c : Char) : Bool := c.isAlphanum || c == '_'

/-- What a template is made of, character by character of literal text. -/
inductive Tok where
  | lit (c : Char)
  | col (name : Text)
deriving DecidableEq

/-- `Braced cs name rest`: `cs` is the inside of a `${` reference to `name`, its closing brace,
    and then `rest`. A doubled brace is one brace of the name. -/
inductive Braced : Text → Text → Text → Prop where
  | close {rest : Text} : rest.head? ≠ some '}' → Braced ('}' :: rest) [] rest
  | brace {cs name rest : Text} : Braced cs name rest →
      Braced ('}' :: '}' :: cs) ('}' :: name) rest
  | char {c : Char} {cs name rest : Text} : c ≠ '}' → Braced cs name rest →
      Braced (c :: cs) (c :: name) rest

/-- `Reads t ss`: the template `t` reads as `ss`. -/
inductive Reads : Text → List Tok → Prop where
  | nil : Reads [] []
  | char {c : Char} {cs : Text} {ss : List Tok} : c ≠ '$' → Reads cs ss →
      Reads (c :: cs) (.lit c :: ss)
  | dollar {cs : Text} {ss : List Tok} : Reads cs ss → Reads ('$' :: '$' :: cs) (.lit '$' :: ss)
  | simple {c : Char} {cs : Text} {ss : List Tok} : isNameStart c →
      Reads ((c :: cs).dropWhile isNameChar) ss →
      Reads ('$' :: c :: cs) (.col ((c :: cs).takeWhile isNameChar) :: ss)
  | braced {cs name rest : Text} {ss : List Tok} : Braced cs name rest → name ≠ [] →
      Reads rest ss → Reads ('$' :: '{' :: cs) (.col name :: ss)

theorem isNameStart_isNameChar {c : Char} (h : isNameStart c = true) : isNameChar c = true := by
  simp only [isNameStart, isNameChar, Char.isAlphanum, Bool.or_eq_true] at h ⊢
  tauto

theorem isNameStart_ne_dollar {c : Char} (h : isNameStart c = true) : c ≠ '$' := by
  rintro rfl; revert h; decide

theorem isNameStart_ne_brace {c : Char} (h : isNameStart c = true) : c ≠ '{' := by
  rintro rfl; revert h; decide

theorem length_dropWhile_le (p : Char → Bool) (cs : Text) :
    (cs.dropWhile p).length ≤ cs.length :=
  (List.dropWhile_suffix p).length_le

/-! ## 2. The columns of a reading -/

/-- The column names of a reading, in order, with repetitions. -/
def colsOf : List Tok → List Text
  | [] => []
  | .lit _ :: ss => colsOf ss
  | .col n :: ss => n :: colsOf ss

@[simp] theorem colsOf_nil : colsOf [] = [] := rfl
@[simp] theorem colsOf_lit (c : Char) (ss : List Tok) : colsOf (.lit c :: ss) = colsOf ss := rfl
@[simp] theorem colsOf_col (n : Text) (ss : List Tok) :
    colsOf (.col n :: ss) = n :: colsOf ss := rfl

/-- A name is appended unless it is there: `if !out.contains(c) { out.push(c) }`. -/
def addRef (out : List Text) (c : Text) : List Text := if out.contains c then out else out ++ [c]

/-- First occurrences, in order. -/
def firsts (cols : List Text) : List Text := cols.foldl addRef []

theorem mem_addRef {out : List Text} {c x : Text} : x ∈ addRef out c ↔ x ∈ out ∨ x = c := by
  unfold addRef
  split
  · rename_i h
    have hc : c ∈ out := by simpa using h
    exact ⟨.inl, fun hx => hx.elim id (fun e => e ▸ hc)⟩
  · simp

theorem nodup_addRef {out : List Text} {c : Text} (h : out.Nodup) : (addRef out c).Nodup := by
  unfold addRef
  split
  · exact h
  · rename_i hc
    have hc' : c ∉ out := by simpa using hc
    exact List.nodup_append.mpr ⟨h, List.nodup_singleton c, by
      intro a ha b hb e
      rw [List.mem_singleton.mp hb] at e
      exact hc' (e ▸ ha)⟩

theorem mem_foldl_addRef : ∀ (cols out : List Text) (x : Text),
    x ∈ cols.foldl addRef out ↔ x ∈ out ∨ x ∈ cols
  | [], out, x => by simp
  | c :: cols, out, x => by
    rw [List.foldl_cons, mem_foldl_addRef cols, mem_addRef, List.mem_cons]
    tauto

theorem nodup_foldl_addRef : ∀ (cols out : List Text), out.Nodup → (cols.foldl addRef out).Nodup
  | [], _, h => h
  | _ :: cols, _, h => nodup_foldl_addRef cols _ (nodup_addRef h)

@[simp] theorem mem_firsts {cols : List Text} {x : Text} : x ∈ firsts cols ↔ x ∈ cols := by
  simp [firsts, mem_foldl_addRef]

/-- The list both scanners keep has one entry for each distinct column. -/
theorem length_firsts (cols : List Text) : (firsts cols).length = cols.toFinset.card := by
  have hn : (firsts cols).Nodup := nodup_foldl_addRef cols [] List.nodup_nil
  rw [← List.toFinset_card_of_nodup hn]
  congr 1
  ext x
  simp

end Postvec
