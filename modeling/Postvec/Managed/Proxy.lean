import Mathlib.Logic.Function.Basic
import Postvec.Format.Grammar
import Postvec.Lib.Run

/-!
# The proxy's prepared statements

A `Parse` that calls `search()` or `embed()` is rewritten and takes one more parameter per call, so
for every `Bind` and every `Describe` of a statement the proxy has to know which rewrite, if any,
the server will have under that name when it comes to the message. It keeps a queue of the replies
it is owed (`Shared.sent`), books them as they come (`Shared.settle`), and looks a name up in both
(`Shared.prepared`); a lookup that depends on the outcome of an earlier cycle waits.

The second part is the machine around it: a client that pipelines, the messages on their way to the
server, a server of the v3 protocol, and its replies on their way back. Every message carries what
was looked up for it, so that it can be compared with what the server really has. There is no
`COPY`, no `FunctionCall`, and no `PREPARE` or `DEALLOCATE` in SQL.

The client and the server name statements by bytes, the proxy by the text it reads them as
(`Names`), and a message it has rewritten goes out under that text's bytes. `R` is what the proxy
remembers of a rewritten statement (`Prepared`), `N` are the names as they are sent.
-/

namespace Postvec.Proxy

/-! ## 1. The replies -/

/-- The replies that are waited for. -/
inductive ReplyKind where
  /-- `1`, of a `Parse` -/
  | parse
  /-- `3`, of a `Close` -/
  | close
  /-- `t`, of a `Describe` of a statement -/
  | params
  /-- `x`: the tag of a `PREPARE` or `DEALLOCATE` in SQL -/
  | lifecycle
  /-- `S`: the `ReadyForQuery` of a `Sync` -/
  | sync
  /-- `Q`: the `ReadyForQuery` of a `Query` -/
  | query
deriving DecidableEq

/-- A cycle ends. -/
def ReplyKind.marker : ReplyKind → Bool
  | .sync => true
  | .query => true
  | _ => false

structure Reply (R : Type) where
  kind : ReplyKind
  extra : Nat
  statements : List (Text × Option R)
  seq : Nat

structure Replies (R : Type) where
  queue : List (Reply R)
  copyIn : Bool
  statements : Text → Option R
  sent : Nat
  done : Nat
  failed : Option Nat

/-- What a client sends, as far as `sent` tells it apart. -/
inductive Front where
  | parse
  | bind
  | execute
  /-- `Describe` of a statement -/
  | describe
  | describePortal
  | close
  | functionCall
  | query
  | sync
  | copyEnd
  | other
deriving DecidableEq

/-- A message of the extended protocol, which has one final reply. -/
def Front.extended : Front → Bool
  | .parse | .bind | .execute | .describe | .describePortal | .close | .functionCall => true
  | _ => false

/-- What a server sends, as far as `settle` tells it apart. -/
inductive Back where
  | parseComplete
  | bindComplete
  | closeComplete
  | commandComplete
  | emptyQuery
  | portalSuspended
  | noData
  | rowDescription
  | functionResponse
  | error
  | parameterDescription
  | ready
  | copyIn
  | other
deriving DecidableEq

/-- A message of the extended protocol is done. -/
def Back.final : Back → Bool
  | .parseComplete | .bindComplete | .closeComplete | .commandComplete | .emptyQuery
  | .portalSuspended | .noData | .rowDescription | .functionResponse => true
  | _ => false

namespace Replies

variable {R : Type}

def new : Replies R := ⟨[], false, fun _ => none, 0, 0, none⟩

def apply (r : Replies R) (statements : List (Text × Option R)) : Replies R :=
  statements.foldl (fun r s => { r with statements := Function.update r.statements s.1 s.2 }) r

def push (r : Replies R) (reply : Reply R) : Replies R := { r with queue := r.queue ++ [reply] }

end Replies

namespace Shared

variable {R : Type}

/-- A message goes to the server. -/
def sent (r : Replies R) (kind : Front) (extra : Nat) (statements : List (Text × Option R))
    (lifecycle : List Text) : Replies R :=
  let seq := r.sent
  let r := { r with
    sent := if kind.extended then r.sent + 1 else r.sent
    queue := r.queue ++ lifecycle.map fun name => ⟨.lifecycle, 0, [(name, none)], seq⟩ }
  match kind with
  | .parse => r.push ⟨.parse, extra, statements, seq⟩
  | .close => r.push ⟨.close, extra, statements, seq⟩
  | .describe => r.push ⟨.params, extra, statements, seq⟩
  | .query => r.push ⟨.query, extra, statements, seq⟩
  | .sync => if r.copyIn then r else r.push ⟨.sync, extra, statements, seq⟩
  | .copyEnd => { r with copyIn := false }
  | _ => r

/-- The first part of `settle`: which message is done, or has failed. -/
def count (r : Replies R) (kind : Back) : Replies R :=
  if kind.final then { r with done := r.done + 1 }
  else if kind = .error ∧ r.failed = none then { r with failed := some r.done }
  else r

/-- Replies up to the end of the cycle were skipped after an error. An unnamed `Parse` that failed,
    rather than was skipped, still ended the old unnamed statement. -/
def skip (r : Replies R) : List (Reply R) → Replies R
  | [] => { r with queue := [] }
  | reply :: rest =>
    if reply.kind.marker then { r.apply reply.statements with done := reply.seq, queue := rest }
    else if reply.kind = .parse ∧ r.failed = some reply.seq ∧
    reply.statements.any (·.1.isEmpty) then
      skip (r.apply [([], none)]) rest
    else skip r rest

/-- A message of the server is booked; for a `ParameterDescription`, how many trailing parameters
    are the proxy's. -/
def settle (r : Replies R) (kind : Back) : Nat × Replies R :=
  let r := count r kind
  match kind with
  | .parseComplete | .closeComplete | .parameterDescription =>
    -- past any lifecycle statement that ended without its tag
    match r.queue.dropWhile fun reply => reply.kind = .lifecycle with
    | [] => (0, { r with queue := [] })
    | reply :: rest => (reply.extra, { r with queue := rest }.apply reply.statements)
  | .ready => (0, { skip { r with copyIn := false } r.queue with failed := none })
  | .copyIn =>
    (0, { r with copyIn := true, queue := r.queue.filter fun reply => reply.kind ≠ .sync })
  | _ => (0, r)

/-- The lookup over the queue, last reply first. -/
def lookup (name : Text) (known : Option R) : Bool → List (Reply R) → Option (Option R)
  | _, [] => some known
  | earlier, reply :: rest =>
    let earlier := earlier || reply.kind.marker
    match reply.statements.reverse.find? fun s => s.1 = name with
    | some s => if earlier then none else some s.2
    | none => lookup name known earlier rest

/-- The rewrite of the statement `name`; none while its outcome is not known. -/
def prepared (r : Replies R) (name : Text) : Option (Option R) :=
  lookup name (r.statements name) false r.queue.reverse

end Shared

/-! ## 2. A server -/

/-- Names as they are sent, and as the proxy reads them. -/
structure Names (N : Type) where
  /-- `from_utf8_lossy` -/
  text : N → Text
  /-- `as_bytes` -/
  bytes : Text → N
  text_bytes : ∀ t, text (bytes t) = t
  unnamed : ∀ n, text n = [] → n = bytes []

/-- Names in UTF-8, as their texts. -/
def Names.utf8 : Names Text := ⟨id, id, fun _ => rfl, fun _ h => h⟩

/-- What a client sends. Of the SQL of a `Parse` only the rewrite counts, if there is one. -/
inductive Request (N R : Type) where
  | parse (name : N) (rewrite : Option R)
  | bind (name : N)
  | describe (name : N)
  | describePortal
  | execute
  | close (name : N)
  | closePortal
  | flush
  | sync
  | query

/-- The name that is looked up for the message. -/
def Request.asks {N R : Type} : Request N R → Option N
  | .bind name => some name
  | .describe name => some name
  | _ => none

def Request.ends {N R : Type} : Request N R → Bool
  | .sync => true
  | .query => true
  | _ => false

/-- The statement a message is about. -/
def Request.name {N R : Type} : Request N R → Option N
  | .parse name _ => some name
  | .bind name => some name
  | .describe name => some name
  | .close name => some name
  | _ => none

/-- The same message with its name read. -/
def Request.map {N M R : Type} (f : N → M) : Request N R → Request M R
  | .parse name rewrite => .parse (f name) rewrite
  | .bind name => .bind (f name)
  | .describe name => .describe (f name)
  | .describePortal => .describePortal
  | .execute => .execute
  | .close name => .close (f name)
  | .closePortal => .closePortal
  | .flush => .flush
  | .sync => .sync
  | .query => .query

/-- The server's statements: whether there is one, and whether it is a rewritten one. -/
structure Server (N R : Type) where
  statements : N → Option (Option R)
  skipping : Bool

/-- How a message ends: with its last reply, with an error (after a `ParameterDescription` or
    before), or, a `Query`, with a list of replies. -/
inductive Outcome where
  | ok (last : Back)
  | fail (half : Bool)
  | ran (answers : List Back)

section

variable {N R : Type} (calls : R → Nat)

/-- The rewrite the server has under a name. -/
def Server.rewrite (b : Server N R) (name : N) : Option R := (b.statements name).join

/-- The parameters of the proxy. -/
def hidden (rewrite : Option R) : Nat := (rewrite.map calls).getD 0

/-- An error: everything up to the next `Sync` is skipped. -/
def Server.stop (b : Server N R) : Server N R := { b with skipping := true }

section Serve

variable [DecidableEq N]

def Server.set (b : Server N R) (name : N) (s : Option (Option R)) : Server N R :=
  { b with statements := Function.update b.statements name s }

/-- The server processes a message. -/
def Server.serve (unnamed : N) (b : Server N R) :
    Request N R → Outcome → Option (Server N R × List (Back × Nat))
  | .parse name rewrite, .ok _ =>
    if name ≠ unnamed ∧ (b.statements name).isSome then none
    else some (b.set name (some rewrite), [(.parseComplete, 0)])
  | .parse name _, .fail _ =>
    some ((if name = unnamed then b.set unnamed none else b).stop, [(.error, 0)])
  | .bind name, .ok _ =>
    if (b.statements name).isSome then some (b, [(.bindComplete, 0)]) else none
  | .bind _, .fail _ => some (b.stop, [(.error, 0)])
  | .describe name, .ok last =>
    if (b.statements name).isSome ∧ (last = .rowDescription ∨ last = .noData) then
      some (b, [(.parameterDescription, hidden calls (b.rewrite name)), (last, 0)])
    else none
  | .describe name, .fail half =>
    if half ∧ (b.statements name).isSome then
      some (b.stop, [(.parameterDescription, hidden calls (b.rewrite name)), (.error, 0)])
    else some (b.stop, [(.error, 0)])
  | .describePortal, .ok last =>
    if last = .rowDescription ∨ last = .noData then some (b, [(last, 0)]) else none
  | .describePortal, .fail _ => some (b.stop, [(.error, 0)])
  | .execute, .ok last =>
    if last = .commandComplete ∨ last = .emptyQuery ∨ last = .portalSuspended then
      some (b, [(last, 0)])
    else none
  | .execute, .fail _ => some (b.stop, [(.error, 0)])
  | .close name, .ok _ => some (b.set name none, [(.closeComplete, 0)])
  | .closePortal, .ok _ => some (b, [(.closeComplete, 0)])
  | .close _, .fail _ | .closePortal, .fail _ => some (b.stop, [(.error, 0)])
  | .flush, .ok _ => some (b, [])
  | .sync, .ok _ => some ({ b with skipping := false }, [(.ready, 0)])
  -- the commit fails
  | .sync, .fail _ => some ({ b with skipping := false }, [(.error, 0), (.ready, 0)])
  | .query, .ran answers =>
    if answers.all fun a =>
        a = .rowDescription ∨ a = .commandComplete ∨ a = .emptyQuery ∨ a = .error then
      some (b.set unnamed none, answers.map (·, 0) ++ [(.ready, 0)])
    else none
  | _, _ => none

/-- The next message, which is skipped after an error unless it is a `Sync`. -/
def Server.next (unnamed : N) (b : Server N R) (request : Request N R) (o : Outcome) :
    Option (Server N R × List (Back × Nat)) :=
  match request with
  | .sync => b.serve calls unnamed .sync o
  | request => if b.skipping then some (b, []) else b.serve calls unnamed request o

end Serve

/-! ## 3. The connection -/

/-- A message on its way, and what was looked up for it. -/
structure Message (N R : Type) where
  request : Request N R
  known : Option R

def Message.map {M : Type} (f : N → M) (m : Message N R) : Message M R := ⟨m.request.map f, m.known⟩

structure Conn (N R : Type) where
  replies : Replies R
  /-- the message the proxy has read, and the answer to its lookup -/
  held : Option (Request N R × Option (Option R))
  /-- the last message was a `Sync` or a `Query` -/
  fresh : Bool
  inbox : List (Message N R)
  server : Server N R
  outbox : List (Back × Nat)

def Conn.start : Conn N R := ⟨.new, none, true, [], ⟨fun _ => none, false⟩, []⟩

/-- `client_to_backend` books the message before it goes out. -/
def Replies.forward (r : Replies R) (m : Message Text R) : Replies R :=
  match m.request with
  | .parse name rewrite => Shared.sent r .parse 0 [(name, rewrite)] []
  | .bind _ => Shared.sent r .bind 0 [] []
  | .describe _ => Shared.sent r .describe (hidden calls m.known) [] []
  | .describePortal => Shared.sent r .describePortal 0 [] []
  | .execute => Shared.sent r .execute 0 [] []
  | .close name => Shared.sent r .close 0 [(name, none)] []
  | .closePortal => Shared.sent r .close 0 [] []
  | .flush => Shared.sent r .other 0 [] []
  | .sync => Shared.sent r .sync 0 [] []
  | .query => Shared.sent r .query 0 [([], none)] []

/-- The message as it goes out. A `Bind` of a rewritten statement is rewritten unless its counts are
    wrong (`rebound`). -/
def Message.sent (names : Names N) (rebound : Bool) (m : Message N R) : Message N R :=
  match m.request with
  | .parse name (some rewrite) =>
    { m with request := .parse (names.bytes (names.text name)) (some rewrite) }
  | .bind name =>
    if m.known.isSome && rebound then { m with request := .bind (names.bytes (names.text name)) }
    else m
  | _ => m

inductive Act (N R : Type) where
  | read (request : Request N R)
  | look
  | forward (rebound : Bool)
  | serve (o : Outcome)
  | settle

/-- One step of the connection. -/
def Conn.step [DecidableEq N] (names : Names N) (s : Conn N R) : Act N R → Option (Conn N R)
  | .read request =>
    match s.held, request with
    | none, .query => if s.fresh then some { s with held := some (.query, none) } else none
    | none, request => some { s with held := some (request, none) }
    | _, _ => none
  | .look =>
    match s.held with
    | some (request, none) =>
      request.asks.bind fun name => (Shared.prepared s.replies (names.text name)).map fun known =>
        { s with held := some (request, some known) }
    | _ => none
  | .forward rebound =>
    match s.held with
    | some (request, known) =>
      if request.asks.isSome ∧ known.isNone then none
      else
        let m : Message N R := ⟨request, known.getD none⟩
        some { s with
          replies := s.replies.forward calls (m.map names.text)
          held := none
          fresh := request.ends
          inbox := s.inbox ++ [m.sent names rebound] }
    | none => none
  | .serve o =>
    match s.inbox with
    | m :: inbox =>
      (s.server.next calls (names.bytes []) m.request o).map fun (server, answers) =>
        { s with server := server, inbox := inbox, outbox := s.outbox ++ answers }
    | [] => none
  | .settle =>
    match s.outbox with
    | (kind, _) :: outbox =>
      some { s with replies := (Shared.settle s.replies kind).2, outbox := outbox }
    | [] => none

end

end Postvec.Proxy
