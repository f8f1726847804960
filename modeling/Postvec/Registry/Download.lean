import Postvec.Lib.Answers
import Postvec.Registry.Index

/-!
# Downloading an archive

`download` of the registry's client: the sources of a model one after the other, each with the loop
of `download_one`, against a server that answers each request as it likes. A `Pending` download
waits for an answer; `feed` is what it does with one, up to the next request or to the end.

An `Answer` is a failed request or a response, with its headers as texts and its body as the chunks
that arrive before it ends, breaks or stalls; how long a throttled client sleeps is left out. The
`.part` file may be missing, a plain file, or one of the things the client refuses to write to;
calls on a plain file succeed.

* **`download_ends_iff`**: the download ends exactly if no request is answered with 416 from then
  on; any other answer uses up a throttle wait or a source;
* `download_endless`: a server that answers every request with 416 keeps it going for ever.
-/

namespace Postvec.Registry.Download

open Machine

/-! ## 1. Answers -/

/-- How often one source may ask to wait. -/
def maxThrottleWaits : Nat := 2

/-- How a body ends. -/
inductive BodyEnd where
  | complete
  | stalled
  | broken (detail : Text)
deriving DecidableEq

/-- An answer of the server: its status, the headers that are read, and its body. -/
structure Response where
  status : Nat
  contentLength : Option Text
  contentRange : Option Text
  chunks : List (List UInt8)
  bodyEnd : BodyEnd
deriving DecidableEq

/-- What a request comes to. -/
inductive Answer where
  | failed (detail : Text)
  | response (r : Response)
deriving DecidableEq

/-- `parse::<u64>` -/
def parseU64 (t : Text) : Option Nat :=
  let digits := if t.head? = some '+' then t.tail else t
  if !digits.isEmpty && digits.all isDigit && digitsValue digits < 2 ^ 64 then
    some (digitsValue digits)
  else none

/-- The `Content-Length`, if it is a number. -/
def contentLength (r : Response) : Option Nat := r.contentLength.bind parseU64

/-- The start of `bytes <start>-<end>/<total>`. -/
def parseContentRangeStart (r : Response) : Option Nat := do
  let value ← r.contentRange
  let value := trim value
  if !("bytes ".toList).isPrefixOf value then none
  else
    let rest := value.drop 6
    if !rest.contains '-' then none else parseU64 (trim (rest.takeWhile (· != '-')))

/-! ## 2. The part file -/

/-- What is at the path of the part file. -/
inductive Part where
  | absent
  | plain (bytes : List UInt8)
  | symlink
  | special
  | linked (links : Nat)
  | unreadable (detail : Text)
deriving DecidableEq

/-- What went wrong with one source, where the next may do better. -/
inductive Detail where
  | statFailed (detail : Text)
  | symlink
  | notRegular
  | hardLinks (links : Nat)
  | requestFailed (detail : Text)
  | length (advertised : Option Nat) (size : Nat)
  | range (start : Option Nat) (requested : Nat)
  | stalled
  | readFailed (detail : Text)
  | exceeds (size : Nat)
  | closed (written size : Nat)
  | throttled
  | http (status : Nat)
deriving DecidableEq

/-- How a source fails; the first two are handled apart. -/
inductive OneSourceError where
  | authExpired
  | digestMismatch
  | other (detail : Detail)
deriving DecidableEq

section Messages

-- the path of the part file, and how a status is shown
variable (part : String) (status : Nat → String)

/-- A number that may be missing, printed with `:?`. -/
def optionText : Option Nat → String
  | none => "None"
  | some n => "Some(" ++ toString n ++ ")"

/-- The text of a detail. -/
def Detail.message : Detail → String
  | .statFailed e => "cannot stat " ++ part ++ ": " ++ String.ofList e
  | .symlink => part ++ " is a symlink; refusing to write through it"
  | .notRegular => part ++ " is not a regular file"
  | .hardLinks n => part ++ " has " ++ toString n ++ " hard links; refusing to resume into it"
  | .requestFailed e => "request failed: " ++ String.ofList e
  | .length a size => "Content-Length " ++ optionText a ++ ", index says " ++ toString size
  | .range s have_ =>
    "206 Content-Range starts at " ++ optionText s ++ ", requested " ++ toString have_
  | .stalled => "no progress for 30s"
  | .readFailed e => "read failed: " ++ String.ofList e
  | .exceeds size => "body exceeds the advertised " ++ toString size ++ " bytes"
  | .closed n size => "connection closed at " ++ toString n ++ " of " ++ toString size ++ " bytes"
  | .throttled => "still throttled after " ++ toString maxThrottleWaits ++ " waits"
  | .http s => "HTTP " ++ status s

end Messages

/-- The error is always `OneSourceError.other`. -/
def checkPartIsPlain : Part → Except Detail Unit
  | .absent => .ok ()
  | .plain _ => .ok ()
  | .symlink => .error .symlink
  | .special => .error .notRegular
  | .linked n => .error (.hardLinks n)
  | .unreadable e => .error (.statFailed e)

/-- What is in the part file. -/
def Part.bytes : Part → List UInt8
  | .plain bytes => bytes
  | _ => []

/-- A part that is larger than the archive is removed. -/
def dropOversize (size : Nat) (part : Part) : Part :=
  if size < part.bytes.length then .absent else part

/-- What a write at an offset leaves. -/
def writeAt (bytes : List UInt8) (offset : Nat) (chunk : List UInt8) : List UInt8 :=
  bytes.take offset ++ chunk ++ bytes.drop (offset + chunk.length)

/-- The loop over the chunks. -/
def streamChunks (size : Nat) (bodyEnd : BodyEnd) :
    List (List UInt8) → List UInt8 → Nat → List UInt8 × Except OneSourceError Unit
  | [], bytes, written =>
    match bodyEnd with
    | .stalled => (bytes, .error (.other .stalled))
    | .broken e => (bytes, .error (.other (.readFailed e)))
    | .complete =>
      if written ≠ size then (bytes, .error (.other (.closed written size))) else (bytes, .ok ())
  | chunk :: chunks, bytes, written =>
    if size < written + chunk.length then (bytes, .error (.other (.exceeds size)))
    else
      streamChunks size bodyEnd chunks (writeAt bytes written chunk) (written + chunk.length)

/-- `stream_body`: at offset 0 the file is created anew. -/
def streamBody (size : Nat) (r : Response) (part : Part) (offset : Nat) :
    Part × Except OneSourceError Unit :=
  let bytes := if offset = 0 then [] else part.bytes
  let out := streamChunks size r.bodyEnd r.chunks bytes offset
  (.plain out.1, out.2)

/-! ## 3. One source -/

/-- What one pass of the loop comes to. -/
inductive Pass where
  | again (throttleWaits : Nat) (part : Part)
  | ended (result : Except OneSourceError Unit) (part : Part)

/-- The parameters: the check of a source's address, its host, and the digest of a file. -/
structure Env where
  checkUrl : Text → Option Text
  host : Text → Option Text
  sha256 : List UInt8 → Text

variable (E : Env)

/-- The bytes have arrived: hash from byte zero. -/
def verify (digestHex : Text) : Part × Except OneSourceError Unit → Pass
  | (part, .error e) => .ended (.error e) part
  | (part, .ok ()) =>
    if E.sha256 part.bytes ≠ digestHex then .ended (.error .digestMismatch) .absent
    else .ended (.ok ()) part

/-- The rest of the loop's body, from the answer on; the request was for the bytes after `part`. -/
def pass (size : Nat) (digestHex : Text) (throttleWaits : Nat) (part : Part) : Answer → Pass
  | .failed e => .ended (.error (.other (.requestFailed e))) part
  | .response r =>
    let have_ := part.bytes.length
    if r.status = 200 then
      -- a mirror that ignores the range: restart, never append
      let part := if 0 < have_ then .absent else part
      if contentLength r ≠ some size then
        .ended (.error (.other (.length (contentLength r) size))) part
      else verify E digestHex (streamBody size r part 0)
    else if r.status = 206 then
      if parseContentRangeStart r ≠ some have_ then
        .ended (.error (.other (.range (parseContentRangeStart r) have_))) part
      else verify E digestHex (streamBody size r part have_)
    else if r.status = 401 ∨ r.status = 403 then .ended (.error .authExpired) part
    else if r.status = 429 ∨ r.status = 503 then
      if maxThrottleWaits ≤ throttleWaits then .ended (.error (.other .throttled)) part
      else .again (throttleWaits + 1) part
    else if r.status = 416 then .again throttleWaits .absent
    else .ended (.error (.other (.http r.status))) part

/-! ## 4. All sources -/

/-- Why a source did not serve the archive. -/
inductive SourceFailure where
  | url (detail : Text)
  | denied
  | digestMismatch
  | other (detail : Detail)
deriving DecidableEq

/-- How the download ends. -/
inductive Outcome where
  | served (host : Text) (part : Part)
  | authExpired (part : Part)
  | failed (failures : List (Text × SourceFailure)) (part : Part)
  | badDigest (digest : Text)

/-- A request to `source` was sent, for what is missing in `part`. -/
structure Pending where
  source : Text
  rest : List Text
  throttleWaits : Nat
  part : Part
  failures : List (Text × SourceFailure)
  digestRetryUsed : Bool

/-- An address without its query, where a signature may be. -/
def stripQuery (url : Text) : Text := url.takeWhile (· != '?')

/-- The loop over the sources, up to a request. -/
def request (size : Nat) (part : Part) (digestRetryUsed : Bool) :
    List Text → List (Text × SourceFailure) → Pending ⊕ Outcome
  | [], failures => .inr (.failed failures part)
  | source :: rest, failures =>
    match E.checkUrl source with
    | some e =>
      request size part digestRetryUsed rest (failures ++ [(stripQuery source, .url e)])
    | none =>
      match checkPartIsPlain part with
      | .error d =>
        request size part digestRetryUsed rest (failures ++ [(stripQuery source, .other d)])
      | .ok () => .inl ⟨source, rest, 0, dropOversize size part, failures, digestRetryUsed⟩

/-- What `download` does with the answer its `download_one` waits for. -/
def feed (m : IndexModel) (p : Pending) (a : Answer) : Pending ⊕ Outcome :=
  let size := m.archive.size
  match pass E size (m.archive.digest.drop 7) p.throttleWaits p.part a with
  | .again waits part =>
    .inl { p with throttleWaits := waits, part := dropOversize size part }
  | .ended (.ok ()) part => .inr (.served ((E.host p.source).getD "unknown".toList) part)
  | .ended (.error .authExpired) part =>
    if !m.isPublic then .inr (.authExpired part)
    else request E size part p.digestRetryUsed p.rest
      (p.failures ++ [(stripQuery p.source, .denied)])
  | .ended (.error .digestMismatch) part =>
    -- one further source after a mismatch, then fail
    let failures := p.failures ++ [(stripQuery p.source, .digestMismatch)]
    if p.digestRetryUsed then .inr (.failed failures part)
    else request E size part true p.rest failures
  | .ended (.error (.other d)) part =>
    request E size part p.digestRetryUsed p.rest (p.failures ++ [(stripQuery p.source, .other d)])

/-- `download`, up to its first request. -/
def start (m : IndexModel) (part : Part) : Pending ⊕ Outcome :=
  if !validDigest m.archive.digest then .inr (.badDigest m.archive.digest)
  else request E m.archive.size part false m.archive.sources []

/-- `download`, after `n` answers. -/
def download (m : IndexModel) (part : Part) (answers : Nat → Answer) (n : Nat) :
    Pending ⊕ Outcome :=
  after (feed E m) (start E m part) answers n

/-! ## 5. The budget -/

/-- The server refuses the range. -/
def is416 : Answer → Bool
  | .response r => r.status == 416
  | .failed _ => false

variable {E} {m : IndexModel} {p p' : Pending} {a : Answer} {part : Part}

/-- The waits and sources that are left. -/
def Pending.budget (p : Pending) : Nat :=
  p.rest.length * (maxThrottleWaits + 1) + (maxThrottleWaits - p.throttleWaits)

variable {size : Nat} {retry : Bool}

/-- The next request is to a later source. -/
theorem request_rest {sources : List Text} :
    ∀ {failures : List (Text × SourceFailure)},
    request E size part retry sources failures = .inl p →
      p.rest.length < sources.length ∧ p.throttleWaits = 0 := by
  induction sources with
  | nil => exact fun h => by cases h
  | cons source rest ih =>
    intro failures h
    unfold request at h
    split at h
    · exact ⟨Nat.lt_succ_of_lt (ih h).1, (ih h).2⟩
    · split at h
      · exact ⟨Nat.lt_succ_of_lt (ih h).1, (ih h).2⟩
      · cases h
        exact ⟨Nat.lt_succ_self _, rfl⟩

theorem request_budget {failures : List (Text × SourceFailure)}
    (h : request E size part retry p.rest failures = .inl p') : p'.budget < p.budget := by
  obtain ⟨hlt, h0⟩ := request_rest h
  unfold Pending.budget maxThrottleWaits
  rw [h0]
  omega

variable {digestHex : Text} {part' : Part}

/-- Only a throttled answer or a 416 leads to another request to the same source. -/
theorem pass_again {waits waits' : Nat}
    (h : pass E size digestHex waits part a = .again waits' part') :
    (is416 a = true ∧ waits' = waits ∧ part' = .absent) ∨
      (is416 a = false ∧ waits' = waits + 1 ∧ waits < maxThrottleWaits ∧ part' = part) := by
  have hverify : ∀ x, verify E digestHex x ≠ .again waits' part' := by
    intro x hx
    unfold verify at hx
    split at hx
    · cases hx
    · split at hx <;> cases hx
  cases a with
  | failed e => cases h
  | response r =>
    unfold pass at h
    simp only at h
    split at h
    · split at h
      · cases h
      · exact absurd h (hverify _)
    · split at h
      · split at h
        · cases h
        · exact absurd h (hverify _)
      · split at h
        · cases h
        · split at h
          · rename_i hs
            split at h
            · cases h
            · rename_i hw
              cases h
              refine .inr ⟨?_, rfl, Nat.not_le.mp hw, rfl⟩
              rcases hs with e | e <;> simp [is416, e]
          · split at h
            · rename_i hs
              cases h
              exact .inl ⟨by simp [is416, hs], rfl, rfl⟩
            · cases h

theorem pass_416 {waits : Nat} (ha : is416 a = true) :
    pass E size digestHex waits part a = .again waits .absent := by
  cases a with
  | failed e => cases ha
  | response r =>
    have hs : r.status = 416 := by simpa [is416] using ha
    simp [pass, hs]

/-- A 416 leads to the same request again, without the part. -/
theorem feed_416 (ha : is416 a = true) :
    feed E m p a = .inl { p with part := .absent } := by
  unfold feed
  simp only [pass_416 ha]
  simp [dropOversize, Part.bytes]

/-- **Every other answer uses up a wait or a source.** -/
theorem feed_spends (ha : is416 a = false) (h : feed E m p a = .inl p') : p'.budget < p.budget := by
  unfold feed at h
  simp only at h
  split at h
  · rename_i waits part' hp
    cases h
    rcases pass_again hp with ⟨ht, -⟩ | ⟨-, hw, hlt, -⟩
    · rw [ha] at ht
      cases ht
    · unfold Pending.budget
      simp only
      omega
  · cases h
  · split at h
    · cases h
    · exact request_budget h
  · split at h
    · cases h
    · exact request_budget h
  · exact request_budget h

/-! ## 6. Termination -/

/-- **When a download ends.** It returns, after finitely many requests, exactly if at no request the
    server goes on with 416 for ever. -/
theorem download_ends_iff (E : Env) (m : IndexModel) (part : Part) (answers : Nat → Answer) :
    (∃ n outcome, download E m part answers n = .inr outcome) ↔
      ∀ n p, download E m part answers n = .inl p → ∃ k, n ≤ k ∧ is416 (answers k) = false := by
  have hidle : ∀ (p : Pending) (a : Answer), is416 a = true →
      ∃ p', feed E m p a = .inl p' ∧ p'.budget = p.budget :=
    fun p a ha => ⟨_, feed_416 ha, rfl⟩
  have hspend : ∀ (p : Pending) (a : Answer) (p' : Pending), ¬ is416 a = true →
      feed E m p a = .inl p' → p'.budget < p.budget :=
    fun p a p' ha h => feed_spends (Bool.not_eq_true _ ▸ ha) h
  have h := ends_iff (start E m part) answers hidle hspend
  simp only [Bool.not_eq_true] at h
  exact h

/-! ### A server that answers 416 -/

/-- Every address passes, and every file has one digest. -/
def sampleEnv : Env := ⟨fun _ => none, fun _ => none, fun _ => List.replicate 64 'a'⟩

/-- An answer with status 416. -/
def refusing : Answer := .response ⟨416, none, none, [], .complete⟩

/-- A model with the given sources. -/
def sampleArchive (sources : List Text) : IndexModel where
  name := "m".toList
  access := "public".toList
  modelType := "embed".toList
  backend := "onnx".toList
  sourceDim := none
  targetDim := none
  sequenceLen := none
  license := none
  licenseVersion := none
  licenseUrl := none
  licenseAcceptance := none
  dependencies := []
  postvecRequires := []
  minPostvecVersion := none
  withdrawn := false
  revision := none
  requiredEntitlements := []
  archive := ⟨"sha256:".toList ++ List.replicate 64 'a', 3, 3, sources⟩

/-- Without a part, against a server that answers every request with 416, no request is the last. -/
theorem download_endless :
    ¬ ∃ n outcome, download sampleEnv (sampleArchive ["https://hub/m".toList]) .absent
      (fun _ => refusing) n = .inr outcome := by
  have hstart : ∃ p, start sampleEnv (sampleArchive ["https://hub/m".toList]) .absent = .inl p :=
    ⟨_, rfl⟩
  have hwaits : ∀ n, ∃ p, download sampleEnv (sampleArchive ["https://hub/m".toList]) .absent
      (fun _ => refusing) n = .inl p := by
    intro n
    induction n with
    | zero => exact hstart
    | succ n ih =>
      obtain ⟨p, hp⟩ := ih
      exact ⟨_, (after_succ_inl hp).trans (feed_416 rfl)⟩
  rintro ⟨n, outcome, h⟩
  obtain ⟨p, hp⟩ := hwaits n
  rw [hp] at h
  cases h

end Postvec.Registry.Download
