import Mathlib.Data.List.GetD
import Postvec.Lib.Wire
import Postvec.Managed.Rewrite

/-!
# A Bind for a rewritten statement

A rewritten statement has one more text parameter for each of its calls. When the client binds it,
the proxy takes the Bind apart (`bind_parts`), adds the vectors of the calls (`rebind`) and sends
the Bind on under the names as it has read them, which are the same names where they are UTF-8.

`Bind` and `bind` are the message as the server reads it, and `Bind.formatOf` the format it gives to
a parameter. The inference behind a call (`embedOne`), the digest of a text, and how the standard
library reads bytes that are not UTF-8 (`Lossy`) are parameters; a read beyond the end of the
message is `none`: the connection ends. Offsets that only move forward are readers that return what
is left.

* `bindParts_eq`: the proxy takes a Bind apart as the server does;
* **`rebind_preserves`**: the client's values, their formats and the result formats stay, the added
  values are text, and a Bind of other counts is sent on as it came.
-/

namespace Postvec.Rebind

open Machine.Wire List Option
open Rewrite (Call Arg)

/-! ## 1. The message -/

structure Bind where
  portal : Bytes
  statement : Bytes
  /-- parameter format codes -/
  formats : List Nat
  params : List (Option Bytes)
  /-- result format codes -/
  results : List Nat
deriving DecidableEq

/-- A parameter: its length and bytes, or the length -1 for NULL. -/
def value : Codec (Option Bytes) where
  write
    | none => be 4 (2 ^ 32 - 1)
    | some v => be 4 v.length ++ v
  read bs := do
    let (len, bs) ← (word 4).read bs
    if len = 2 ^ 32 - 1 then some (none, bs)
    else if len < 2 ^ 31 then do
      let (v, bs) ← takeBytes len bs
      some (some v, bs)
    else none
  Valid v := ∀ b, v = some b → b.length < 2 ^ 31
  read_write := by
    intro v hv rest
    cases v with
    | none =>
      have hlen : (word 4).Valid (2 ^ 32 - 1) := by
        change 2 ^ 32 - 1 < 256 ^ 4
        decide
      change ((word 4).read ((word 4).write (2 ^ 32 - 1) ++ rest)).bind _ = _
      rw [(word 4).read_write hlen]
      rfl
    | some v =>
      have hlt := hv v rfl
      have hlen : (word 4).Valid v.length := by
        change v.length < 256 ^ 4
        omega
      rw [append_assoc]
      change ((word 4).read ((word 4).write v.length ++ (v ++ rest))).bind _ = _
      rw [(word 4).read_write hlen, bind_some]
      dsimp only
      rw [if_neg (by omega), if_pos hlt, takeBytes_append rfl]
      rfl
  write_read := by
    intro bs v rest h
    obtain ⟨⟨len, bs'⟩, hlen, hv⟩ := bind_eq_some_iff.mp h
    obtain ⟨rfl, -⟩ := (word 4).write_read hlen
    clear h hlen
    dsimp only at hv
    split at hv
    · rename_i he
      cases hv
      exact ⟨by rw [he]; rfl, fun b hb => by cases hb⟩
    · split at hv
      · rename_i hlt
        obtain ⟨⟨b, bs''⟩, hb, hv⟩ := bind_eq_some_iff.mp hv
        cases hv
        obtain ⟨rfl, rfl⟩ := eq_append_of_takeBytes hb
        refine ⟨by rw [append_assoc]; rfl, fun b' hb' => ?_⟩
        cases hb'
        exact hlt
      · cases hv

/-- The fields of the message, in order. -/
def bind : Codec Bind where
  write b := cstring.write b.portal ++ (cstring.write b.statement ++
    ((counted (word 2)).write b.formats ++
    ((counted value).write b.params ++ (counted (word 2)).write b.results)))
  read bs := do
    let (portal, bs) ← cstring.read bs
    let (statement, bs) ← cstring.read bs
    let (formats, bs) ← (counted (word 2)).read bs
    let (params, bs) ← (counted value).read bs
    let (results, bs) ← (counted (word 2)).read bs
    some (⟨portal, statement, formats, params, results⟩, bs)
  Valid b := cstring.Valid b.portal ∧ cstring.Valid b.statement ∧
    (counted (word 2)).Valid b.formats ∧
    (counted value).Valid b.params ∧ (counted (word 2)).Valid b.results
  read_write := by
    intro b hb rest
    obtain ⟨hp, hs, hf, hv, hr⟩ := hb
    simp only [append_assoc, cstring.read_write hp, cstring.read_write hs,
      (counted (word 2)).read_write hf, (counted value).read_write hv,
        (counted (word 2)).read_write hr,
      bind_eq_bind, bind_some]
  write_read := by
    intro bs b rest h
    obtain ⟨⟨portal, bs₁⟩, h₁, h'⟩ := bind_eq_some_iff.mp h
    obtain ⟨⟨statement, bs₂⟩, h₂, h'⟩ := bind_eq_some_iff.mp h'
    obtain ⟨⟨formats, bs₃⟩, h₃, h'⟩ := bind_eq_some_iff.mp h'
    obtain ⟨⟨params, bs₄⟩, h₄, h'⟩ := bind_eq_some_iff.mp h'
    obtain ⟨⟨results, bs₅⟩, h₅, h'⟩ := bind_eq_some_iff.mp h'
    cases h'
    obtain ⟨e₁, hp⟩ := cstring.write_read h₁
    obtain ⟨e₂, hs⟩ := cstring.write_read h₂
    obtain ⟨e₃, hf⟩ := (counted (word 2)).write_read h₃
    obtain ⟨e₄, hv⟩ := (counted value).write_read h₄
    obtain ⟨e₅, hr⟩ := (counted (word 2)).write_read h₅
    refine ⟨?_, hp, hs, hf, hv, hr⟩
    rw [e₁, e₂, e₃, e₄, e₅]
    simp only [append_assoc]

/-- A whole message body. -/
def readBind (body : Bytes) : Option Bind :=
  match bind.read body with
  | some (b, []) => some b
  | _ => none

/-- The format the server reads parameter `i` in. -/
def Bind.formatOf (b : Bind) (i : Nat) : Nat :=
  if b.formats.length > 1 then b.formats.getD i 0
  else if b.formats.length > 0 then b.formats.getD 0 0
  else 0

/-! ## 2. The proxy -/

/-- A value as the proxy reads it: every negative length is NULL. -/
def readParam (bs : Bytes) : Option (Option Bytes × Bytes) := do
  let (len, bs) ← (word 4).read bs
  if 2 ^ 31 ≤ len then some (none, bs)
  else do
    let (v, bs) ← takeBytes len bs
    some (some v, bs)

def bindParts (rest : Bytes) : Option (List Nat × List (Option Bytes) × Bytes) := do
  let (formats, rest) ← (counted (word 2)).read rest
  let (count, rest) ← (word 2).read rest
  let (params, rest) ← readMany readParam count rest
  some (formats, params, rest)

structure Prepared where
  calls : List Call
  params : Nat

section proxy

variable (embedOne : Call → List (Option Bytes) → Except Bytes (Option Bytes))
  (sha256 : Bytes → Bytes)

/-- The vector's text `[..]` as an array literal. -/
def arrayLiteral (v : Bytes) : Bytes :=
  String.utf8EncodeChar '\x7b' ++ (v.drop 1).dropLast ++ String.utf8EncodeChar '\x7d'

/-- The value of a call: its vector, behind the digest of the text that was embedded if that is a
    parameter; NULL; or the message of the failure. -/
def callValue (params : List (Option Bytes)) (call : Call) : Option Bytes :=
  match embedOne call params with
  | .ok v => v.map fun v =>
    match call.text with
    | .param n =>
      sha256 ((params.getD (n - 1) none).getD []) ++ String.utf8EncodeChar ' ' ++ arrayLiteral v
    | .literal _ => arrayLiteral v
  | .error e => some (String.utf8EncodeChar '!' ++ e)

/-- Explicit format codes gain a text code for each added value. -/
def newFormats (formats : List Nat) (params added : Nat) : List Nat :=
  match formats with
  | [] => []
  | [0] => [0]
  | [f] => List.replicate params f ++ List.replicate added 0
  | formats => formats ++ List.replicate added 0

/-- `none`: the message ended early; `some none`: the counts do not match. -/
def rebind (prepared : Prepared) (rest : Bytes) : Option (Option Bytes) := do
  let (formats, params, results) ← bindParts rest
  if params.length ≠ prepared.params ∨ ¬ (formats.length ≤ 1 ∨ formats.length = params.length) then
    some none
  else
    let extra := prepared.calls.map (callValue embedOne sha256 params)
    let formats := newFormats formats params.length extra.length
    some (some (be 2 formats.length ++ formats.flatMap (be 2) ++
      be 2 (params.length + extra.length) ++
      (params ++ extra).flatMap value.write ++ results))

/-- `from_utf8_lossy`, as the bytes of the text it returns. -/
structure Lossy where
  read : Bytes → Bytes
  /-- UTF-8 is read as it is -/
  valid : ∀ t : List Char, read (t.flatMap String.utf8EncodeChar) = t.flatMap String.utf8EncodeChar
  /-- what replaces other bytes has no zero -/
  nonzero : ∀ {s : Bytes}, (0 : UInt8) ∉ s → (0 : UInt8) ∉ read s

/-- The branch of a Bind: the body that is sent on. -/
def forwardBind (lossy : Lossy) (statement : Bytes → Option Prepared) (body : Bytes) :
    Option Bytes := do
  let (portal, rest) ← cstring.read body
  let (name, rest) ← cstring.read rest
  match (statement (lossy.read name)).filter fun p => !p.calls.isEmpty with
  | none => some body
  | some prepared =>
    match ← rebind embedOne sha256 prepared rest with
    | none => some body
    | some bind => some (lossy.read portal ++ [0] ++ (lossy.read name ++ [0]) ++ bind)

end proxy

/-! ## 3. Taking a Bind apart -/

theorem readBind_eq_some {body : Bytes} {b : Bind} :
    readBind body = some b ↔ body = bind.write b ∧ bind.Valid b := by
  constructor
  · intro h
    unfold readBind at h
    split at h
    · rename_i b' hr
      cases h
      obtain ⟨hw, hv⟩ := bind.write_read hr
      rw [append_nil] at hw
      exact ⟨hw, hv⟩
    · cases h
  · intro h
    obtain ⟨rfl, hv⟩ := h
    have hr := bind.read_write hv []
    rw [append_nil] at hr
    rw [readBind, hr]

/-- The proxy reads the values as the server does. -/
theorem readMany_readParam : ∀ {vs : List (Option Bytes)}, (∀ v ∈ vs, value.Valid v) → ∀ rest,
    readMany readParam vs.length (vs.flatMap value.write ++ rest) = some (vs, rest)
  | [], _, _ => rfl
  | v :: vs, h, rest => by
    have hone : readParam (value.write v ++ (vs.flatMap value.write ++ rest)) =
        some (v, vs.flatMap value.write ++ rest) := by
      have hv := value.read_write (h v mem_cons_self) (vs.flatMap value.write ++ rest)
      obtain ⟨⟨len, bs⟩, hlen, hv⟩ := bind_eq_some_iff.mp hv
      unfold readParam
      rw [hlen]
      simp only [bind_eq_bind, bind_some] at hv ⊢
      split at hv
      · rename_i he
        rw [he, if_pos (by decide)]
        exact hv
      · split at hv
        · rename_i hlt
          rw [if_neg (Nat.not_le.mpr hlt)]
          exact hv
        · cases hv
    rw [length_cons, readMany, flatMap_cons, append_assoc, hone]
    dsimp only [Bind.bind, Option.bind]
    rw [readMany_readParam fun w hw => h w (mem_cons_of_mem _ hw)]

theorem bindParts_eq {b : Bind} (h : bind.Valid b) :
    bindParts ((counted (word 2)).write b.formats ++ ((counted value).write b.params ++
      (counted (word 2)).write b.results)) = some (b.formats, b.params,
        (counted (word 2)).write b.results) := by
  obtain ⟨-, -, hf, hv, -⟩ := h
  have hcount : (word 2).Valid b.params.length := hv.1
  unfold bindParts
  rw [(counted (word 2)).read_write hf]
  have hwrite : (counted value).write b.params ++ (counted (word 2)).write b.results =
      (word 2).write b.params.length ++
        (b.params.flatMap value.write ++ (counted (word 2)).write b.results) :=
    append_assoc _ _ _
  simp only [bind_eq_bind, bind_some, hwrite, (word 2).read_write hcount,
    readMany_readParam hv.2]

/-! ## 4. Formats -/

/-- With a code for each parameter, the code is the format. -/
theorem formatOf_of_length {b : Bind} {i n : Nat} (hlen : b.formats.length = n) (hi : i < n) :
    b.formatOf i = b.formats.getD i 0 := by
  unfold Bind.formatOf
  by_cases h : b.formats.length > 1
  · rw [if_pos h]
  · rw [if_neg h, if_pos (by omega), show i = 0 by omega]

/-- The formats of the first parameters stay, and those of the others are text. -/
theorem formatOf_newFormats {b b' : Bind} {k : Nat}
    (hcount : b.formats.length ≤ 1 ∨ b.formats.length = b.params.length)
    (hf : b'.formats = newFormats b.formats b.params.length k) :
    (∀ i, i < b.params.length → b'.formatOf i = b.formatOf i) ∧
      ∀ i, b.params.length ≤ i → i < b.params.length + k → b'.formatOf i = 0 := by
  have hsame : b'.formats = b.formats → (∀ i, b.formatOf i = 0) →
      (∀ i, i < b.params.length → b'.formatOf i = b.formatOf i) ∧
        ∀ i, b.params.length ≤ i → i < b.params.length + k → b'.formatOf i = 0 := by
    intro he h0
    have hall : ∀ i, b'.formatOf i = b.formatOf i := fun i => by
      unfold Bind.formatOf
      rw [he]
    exact ⟨fun i _ => hall i, fun i _ _ => (hall i).trans (h0 i)⟩
  -- otherwise the codes are one for each parameter, followed by the added zeros
  have heach : ∀ per : List Nat, per.length = b.params.length →
    b'.formats = per ++ List.replicate k 0 →
      (∀ i, i < b.params.length → b.formatOf i = per.getD i 0) →
      (∀ i, i < b.params.length → b'.formatOf i = b.formatOf i) ∧
        ∀ i, b.params.length ≤ i → i < b.params.length + k → b'.formatOf i = 0 := by
    intro per hper he hold
    have hlen : b'.formats.length = b.params.length + k := by
      rw [he, length_append, hper, length_replicate]
    refine ⟨fun i hi => ?_, fun i hle hlt => ?_⟩
    · rw [formatOf_of_length hlen (by omega), he, hold i hi,
        getD_append _ _ _ _ (by rwa [hper])]
    · rw [formatOf_of_length hlen hlt, he, getD_append_right _ _ _ _ (by rwa [hper])]
      rw [getD_replicate _ (by omega)]
  unfold newFormats at hf
  split at hf
  · rename_i he
    exact hsame (hf.trans he.symm) fun i => by simp [Bind.formatOf, he]
  · rename_i he
    exact hsame (hf.trans he.symm) fun i => by simp [Bind.formatOf, he]
  · rename_i f _ he
    refine heach _ length_replicate hf fun i hi => ?_
    rw [getD_replicate _ hi]
    simp [Bind.formatOf, he]
  · rename_i h0 _ h1
    have hlen : b.formats.length = b.params.length := by
      refine hcount.resolve_left fun hle => ?_
      cases hb : b.formats with
      | nil => exact h0 hb
      | cons f fs =>
        cases fs with
        | nil => exact h1 f hb
        | cons g fs =>
          rw [hb, length_cons, length_cons] at hle
          omega
    exact heach _ hlen hf fun i hi => formatOf_of_length hlen hi

theorem newFormats_valid {formats : List Nat} {n k : Nat} (hv : (counted (word 2)).Valid formats)
    (hcount : formats.length ≤ 1 ∨ formats.length = n) (hnk : n + k ≤ 65535) :
    (counted (word 2)).Valid (newFormats formats n k) := by
  have hzero : ∀ f ∈ List.replicate k 0, (word 2).Valid f := by
    intro f hf
    rw [eq_of_mem_replicate hf]
    exact Nat.pow_pos (by decide)
  have happend : ∀ per : List Nat, per.length = n → (∀ f ∈ per, (word 2).Valid f) →
      (counted (word 2)).Valid (per ++ List.replicate k 0) := by
    intro per hper hall
    refine ⟨?_, fun f hf => ?_⟩
    · rw [length_append, hper, length_replicate]
      omega
    · rcases mem_append.mp hf with hf | hf
      · exact hall f hf
      · exact hzero f hf
  unfold newFormats
  split
  · exact hv
  · exact hv
  · refine happend _ length_replicate fun f hf => ?_
    rw [eq_of_mem_replicate hf]
    exact hv.2 _ mem_cons_self
  · rename_i h0 _ h1
    refine happend _ (hcount.resolve_left fun hle => ?_) hv.2
    match formats, h0, h1, hle with
    | [], h0, _, _ => exact h0 rfl
    | [f], _, h1, _ => exact h1 f rfl

/-! ## 5. The Bind that is sent on -/

/-- Rebinding preserves the client's Bind. For every message the server can read, of a statement
    with added calls: if its counts are those of the statement, the message sent on has the client's
    values in the client's formats, followed by the values of the calls as text, and the client's
    result formats, under the names as the proxy reads them; otherwise it is sent on as it came. A
    value of a call is taken to be shorter than 2 GiB, as every value in a message is. -/
theorem rebind_preserves (embedOne : Call → List (Option Bytes) → Except Bytes (Option Bytes))
    (sha256 : Bytes → Bytes) (lossy : Lossy) (statement : Bytes → Option Prepared) (body : Bytes)
    (b : Bind)
    (prepared : Prepared) (hb : readBind body = some b)
    (hs : statement (lossy.read b.statement) = some prepared) (hcalls : prepared.calls ≠ []) :
    (b.params.length = prepared.params ∧ (b.formats.length ≤ 1 ∨
      b.formats.length = b.params.length) →
      prepared.params + prepared.calls.length ≤ 65535 →
      (∀ call ∈ prepared.calls, value.Valid (callValue embedOne sha256 b.params call)) →
      ∃ body' b', forwardBind embedOne sha256 lossy statement body = some body' ∧
      readBind body' = some b' ∧
        b'.params = b.params ++ prepared.calls.map (callValue embedOne sha256 b.params) ∧
        (∀ i, i < prepared.params → b'.formatOf i = b.formatOf i) ∧
        (∀ i, prepared.params ≤ i → i < prepared.params + prepared.calls.length →
          b'.formatOf i = 0) ∧
        b'.results = b.results ∧ b'.portal = lossy.read b.portal ∧
        b'.statement = lossy.read b.statement) ∧
    (¬ (b.params.length = prepared.params ∧
        (b.formats.length ≤ 1 ∨ b.formats.length = b.params.length)) →
      forwardBind embedOne sha256 lossy statement body = some body) := by
  obtain ⟨rfl, hv⟩ := readBind_eq_some.mp hb
  have hparts := bindParts_eq hv
  obtain ⟨hp, hn, hf, hvals, hr⟩ := hv
  have hfilter : (statement (lossy.read b.statement)).filter (fun p => !p.calls.isEmpty) =
      some prepared := by
    rw [hs, filter_some, if_pos]
    rwa [Bool.not_eq_true', isEmpty_eq_false_iff]
  have hforward : forwardBind embedOne sha256 lossy statement (bind.write b) =
      (rebind embedOne sha256 prepared ((counted (word 2)).write b.formats ++
        ((counted value).write b.params ++ (counted (word 2)).write b.results))).bind fun r =>
          match r with
          | none => some (bind.write b)
          | some bind =>
            some (lossy.read b.portal ++ [0] ++ (lossy.read b.statement ++ [0]) ++ bind) := by
    have hportal := cstring.read_write hp (cstring.write b.statement ++
      ((counted (word 2)).write b.formats ++
      ((counted value).write b.params ++ (counted (word 2)).write b.results)))
    unfold forwardBind
    rw [show bind.write b = cstring.write b.portal ++ _ from rfl, hportal]
    simp only [bind_eq_bind, bind_some, cstring.read_write hn, hfilter]
  refine ⟨fun hcount hnk hadded => ?_, fun hcount => ?_⟩
  · obtain ⟨hlen, hform⟩ := hcount
    have hfits : (counted value).Valid
        (b.params ++ prepared.calls.map (callValue embedOne sha256 b.params)) := by
      refine ⟨?_, fun v hm => ?_⟩
      · rw [length_append, length_map]
        omega
      · rcases mem_append.mp hm with hm | hm
        · exact hvals.2 v hm
        · obtain ⟨call, hc, rfl⟩ := List.mem_map.mp hm
          exact hadded call hc
    have hrebind : rebind embedOne sha256 prepared ((counted (word 2)).write b.formats ++
        ((counted value).write b.params ++ (counted (word 2)).write b.results)) =
        some (some ((counted (word 2)).write (newFormats b.formats b.params.length
          prepared.calls.length) ++
          ((counted value).write (b.params ++ prepared.calls.map
            (callValue embedOne sha256 b.params)) ++
            (counted (word 2)).write b.results))) := by
      unfold rebind
      rw [hparts]
      simp only [bind_eq_bind, bind_some]
      rw [if_neg (fun h => h.elim (fun h => h hlen) fun h => h hform)]
      simp only [length_map, counted, word, length_append, append_assoc]
    rw [hrebind] at hforward
    refine ⟨_, ⟨lossy.read b.portal, lossy.read b.statement,
      newFormats b.formats b.params.length prepared.calls.length,
      b.params ++ prepared.calls.map (callValue embedOne sha256 b.params), b.results⟩,
        hforward, ?_, rfl,
      ?_, ?_, rfl, rfl, rfl⟩
    · refine readBind_eq_some.mpr ⟨?_, lossy.nonzero hp, lossy.nonzero hn,
        newFormats_valid hf hform (by omega), hfits, hr⟩
      exact append_assoc _ _ _
    · rw [← hlen]
      exact (formatOf_newFormats hform rfl).1
    · rw [← hlen]
      exact (formatOf_newFormats hform rfl).2
  · have hrebind : rebind embedOne sha256 prepared ((counted (word 2)).write b.formats ++
        ((counted value).write b.params ++ (counted (word 2)).write b.results)) = some none := by
      unfold rebind
      rw [hparts]
      simp only [bind_eq_bind, bind_some]
      rw [if_pos]
      by_cases hlen : b.params.length = prepared.params
      · exact .inr fun h => hcount ⟨hlen, h⟩
      · exact .inl hlen
    rw [hforward, hrebind]
    rfl

/-- A Bind with one binary code for its two values, one of them NULL, to a statement with one
    call. -/
def sampleBind : Bind := ⟨[112], [115], [1], [some [7, 8], none], [0]⟩

def sampleCall : Call := ⟨0, 0, 0, true, ['m'], [], .literal ['x'], false⟩

theorem sampleBind_preserved :
    ∃ body' b', forwardBind (fun _ _ => .ok (some [91, 49, 93])) id ⟨id, fun _ => rfl, id⟩
        (fun _ => some ⟨[sampleCall], 2⟩) (bind.write sampleBind) = some body' ∧
      readBind body' = some b' ∧ b'.params = [some [7, 8], none, some [123, 49, 125]] ∧
      b'.formatOf 0 = 1 ∧ b'.formatOf 1 = 1 ∧ b'.formatOf 2 = 0 ∧ b'.results = [0] := by
  have hb : readBind (bind.write sampleBind) = some sampleBind := by decide +kernel
  have h := (rebind_preserves (fun _ _ => .ok (some [91, 49, 93])) id ⟨id, fun _ => rfl, id⟩
    (fun _ => some ⟨[sampleCall], 2⟩) _ sampleBind _ hb rfl (cons_ne_nil _ _)).1
    ⟨rfl, .inl (by decide)⟩ (by decide) (by
      intro call hc v hv
      cases mem_singleton.mp hc
      cases hv
      decide)
  obtain ⟨body', b', hfwd, hread, hparams, hold, hnew, hres, -, -⟩ := h
  exact ⟨body', b', hfwd, hread, hparams, hold 0 (by decide), hold 1 (by decide),
    hnew 2 (by decide) (by decide), hres⟩

end Postvec.Rebind
