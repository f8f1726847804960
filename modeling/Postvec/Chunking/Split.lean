import Postvec.Format.Grammar

/-!
# The recursive character splitter

`split_recursive` of the core crate: a document is cut into pieces at the strongest separator it
has, a piece that is still too long at the next one, down to an arbitrary character boundary
(`walk`, `segment`); the pieces are merged greedily into chunks that carry up to `chunk_overlap`
characters of the chunk before (`Merger.push`), and chunks of whitespace are dropped.

A run that does not end with chunks halts: with an error of the source (`SplitError`), or at a debug
assertion or index check (`Halt.panic`). The casts to `i32` and `i64` at the end do not wrap within
`maxDocumentBytes`.
-/

namespace Postvec.Chunking

/-! ## 1. Limits, separators and errors -/

/-- One document produces at most this many non-blank chunks. -/
def maxChunksPerDocument : Nat := 10000

/-- Input bound in UTF-8 bytes. -/
def maxDocumentBytes : Nat := 32 * 1024 * 1024

/-- The attempted spans total at most this many times the document's characters. -/
def maxOutputAmplification : Nat := 4

/-- `char::is_whitespace`: the Unicode property `White_Space`. -/
def isWhitespace (c : Char) : Bool :=
  let n := c.toNat
  n == 0x20 || (0x09 ≤ n && n ≤ 0x0d) || n == 0x85 || n == 0xa0 || n == 0x1680 ||
    (0x2000 ≤ n && n ≤ 0x200a) || n == 0x2028 || n == 0x2029 || n == 0x202f || n == 0x205f ||
    n == 0x3000

/-- A separator has at least one character; the scan for it advances. -/
abbrev Separator := { s : Text // 0 < s.length }

/-- Boundary hierarchy, strongest first. -/
def separators : List Separator :=
  [⟨['\r', '\n', '\r', '\n'], by decide⟩,
   ⟨['\n', '\n'], by decide⟩,
   ⟨['\r', '\n'], by decide⟩,
   ⟨['\n'], by decide⟩,
   ⟨['.', ' '], by decide⟩,
   ⟨['?', ' '], by decide⟩,
   ⟨['!', ' '], by decide⟩,
   ⟨[';', ' '], by decide⟩,
   ⟨[',', ' '], by decide⟩,
   ⟨[' '], by decide⟩]

/-- One emitted chunk: its number, its end-exclusive character offsets, its text. -/
structure Chunk where
  seq : Nat
  charStart : Nat
  charEnd : Nat
  text : Text
deriving DecidableEq, Repr

inductive SplitError where
  | geometry (msg : String)
  | tooManyChunks (limit : Nat)
  | documentTooLarge (bytes limit : Nat)
  | outputBudgetExceeded (chars budget : Nat)
deriving DecidableEq, Repr

/-- The error as it is displayed. -/
def SplitError.toText : SplitError → String
  | .geometry msg => "invalid chunking geometry: " ++ msg
  | .tooManyChunks limit =>
    "the document splits into more than " ++ toString limit ++
      " non-blank chunks (the per-document limit); re-create the entry with a larger " ++
      "chunk_size or shrink the document"
  | .documentTooLarge bytes limit =>
    "the document is " ++ toString bytes ++ " bytes, over the " ++ toString limit ++
      "-byte per-document splitter limit; store oversized payloads outside the semantic " ++
      "column or split them upstream"
  | .outputBudgetExceeded chars budget =>
    "the chunk set would scan and materialize " ++ toString chars ++
      " characters, over the per-document output budget of " ++ toString budget ++ " (" ++
      toString maxOutputAmplification ++ "x the document); lower chunk_overlap, raise " ++
      "chunk_size, or split the document upstream"

/-- How a run ends without chunks. -/
inductive Halt where
  | error (e : SplitError)
  | panic
deriving DecidableEq, Repr

/-- `chars[start..end]`, which panics outside the text. -/
def slice (chars : Text) (start stop : Nat) : Except Halt Text :=
  if start ≤ stop ∧ stop ≤ chars.length then .ok ((chars.drop start).take (stop - start))
  else .error .panic

/-! ## 2. The merger -/

/-- An end-exclusive span of character offsets. -/
abbrev Span := Nat × Nat

structure Merger where
  size : Nat
  overlap : Nat
  outputBudget : Nat
  chargedChars : Nat
  cur : Option Span
  out : List Span
deriving DecidableEq, Repr

/-- Record one span: it is charged, dropped when blank, refused over either cap. -/
def Merger.emit (m : Merger) (chars : Text) (start stop : Nat) : Except Halt Merger :=
  let charged := m.chargedChars + (stop - start)
  if m.outputBudget < charged then
    .error (.error (.outputBudgetExceeded charged m.outputBudget))
  else
    match slice chars start stop with
    | .error e => .error e
    | .ok text =>
      if text.all isWhitespace then .ok { m with chargedChars := charged }
      else if maxChunksPerDocument ≤ m.out.length then
        .error (.error (.tooManyChunks maxChunksPerDocument))
      else .ok { m with chargedChars := charged, out := m.out ++ [(start, stop)] }

/-- Where the chunk after `(cs, ce)` starts when a piece of `len` characters comes in: up to
    `overlap` characters back, past the last start, and not so far back that the piece does not
    fit. -/
def Merger.nextStart (m : Merger) (cs ce len : Nat) : Nat :=
  max (max (ce - m.overlap) (cs + 1)) (ce + len - m.size)

/-- Add one piece. The first three tests are the debug assertions. -/
def Merger.push (m : Merger) (chars : Text) (start stop : Nat) : Except Halt Merger :=
  if ¬ start < stop then .error .panic
  else if ¬ stop - start ≤ m.size then .error .panic
  else
    match m.cur with
    | none => .ok { m with cur := some (start, stop) }
    | some (cs, ce) =>
      if ce ≠ start then .error .panic
      else if (ce - cs) + (stop - start) ≤ m.size then .ok { m with cur := some (cs, stop) }
      else
        match m.emit chars cs ce with
        | .error e => .error e
        | .ok m' => .ok { m' with cur := some (m.nextStart cs ce (stop - start), stop) }

/-- Close the last chunk, and number and cut out the chunks. -/
def Merger.finish (m : Merger) (chars : Text) : Except Halt (List Chunk) :=
  let close : Except Halt Merger :=
    match m.cur with
    | none => .ok m
    | some (cs, ce) => Merger.emit { m with cur := none } chars cs ce
  match close with
  | .error e => .error e
  | .ok m' =>
    m'.out.zipIdx.mapM fun (span, i) =>
      (slice chars span.1 span.2).map fun text => ⟨i, span.1, span.2, text⟩

/-! ## 3. The recursion over the separators -/

/-- The arbitrary character boundary: `while p < end`, pieces of `step` characters. -/
def fallback (chars : Text) (step : Nat) (hstep : 0 < step) (p stop : Nat) (m : Merger) :
    Except Halt Merger :=
  if _h : p < stop then
    match m.push chars p (min (p + step) stop) with
    | .error e => .error e
    | .ok m' => fallback chars step hstep (min (p + step) stop) stop m'
  else .ok m
termination_by stop - p

/-- The loop over one separator's occurrences, `while i + sep.len() <= end`: every occurrence ends
    a segment. Returns where the segment after the last one starts, and whether there was one. -/
def scanLoop (chars : Text) (sep : Separator) (segment : Nat → Nat → Merger → Except Halt Merger)
    (stop i segStart : Nat) (found : Bool) (m : Merger) : Except Halt (Nat × Bool × Merger) :=
  if _h : i + sep.1.length ≤ stop then
    match slice chars i (i + sep.1.length) with
    | .error e => .error e
    | .ok text =>
      if text = sep.1 then
        match segment segStart (i + sep.1.length) m with
        | .error e => .error e
        | .ok m' =>
          scanLoop chars sep segment stop (i + sep.1.length) (i + sep.1.length) true m'
      else scanLoop chars sep segment stop (i + 1) segStart found m
  else .ok (segStart, found, m)
termination_by stop - i
decreasing_by
  · have := sep.2
    omega
  · have := sep.2
    omega

/-- Feed the span to the merger as pieces of at most `size` characters; `seps` are the levels from
    the current one on. -/
def walk (chars : Text) : List Separator → Nat → Nat → Merger → Except Halt Merger
  | seps, start, stop, m =>
    if stop - start ≤ m.size then
      if start < stop then m.push chars start stop else .ok m
    else
      match seps with
      | [] =>
        fallback chars (max (m.size - m.overlap) 1) (by omega) start stop m
      | sep :: rest =>
        -- `segment`: a piece when it fits, the next level when it does not
        let segment := fun s e (m : Merger) =>
          if e - s ≤ m.size then m.push chars s e else walk chars rest s e m
        match scanLoop chars sep segment stop start start false m with
        | .error e => .error e
        | .ok (segStart, found, m') =>
          if ¬ found then walk chars rest start stop m'
          else if segStart < stop then segment segStart stop m'
          else .ok m'

/-- Split a text. -/
def splitRecursive (text : Text) (chunkSize chunkOverlap : Int) : Except Halt (List Chunk) :=
  if chunkSize < 1 then
    .error (.error (.geometry
      ("chunk_size must be at least 1 (got " ++ toString chunkSize ++ ")")))
  else if chunkOverlap < 0 ∨ chunkOverlap ≥ chunkSize then
    .error (.error (.geometry
      ("chunk_overlap must be between 0 and chunk_size - 1 (got " ++ toString chunkOverlap ++
        " for chunk_size " ++ toString chunkSize ++ ")")))
  else if maxDocumentBytes < byteLen text then
    .error (.error (.documentTooLarge (byteLen text) maxDocumentBytes))
  else if ¬ text.any (fun c => !isWhitespace c) then .ok []
  else
    let merger : Merger :=
      { size := chunkSize.toNat
        overlap := chunkOverlap.toNat
        outputBudget := max (text.length * maxOutputAmplification) chunkSize.toNat
        chargedChars := 0
        cur := none
        out := [] }
    match walk text separators 0 text.length merger with
    | .error e => .error e
    | .ok m => m.finish text

end Postvec.Chunking
