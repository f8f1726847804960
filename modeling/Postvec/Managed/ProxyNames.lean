import Postvec.Managed.ProxySpec

/-!
# Statement names that the proxy tells apart

The server knows statements by the names it is sent, the proxy by the texts it reads them as. As
long as one name goes to the server for each text (`wire`), the connection is one in which both have
the same names (`Conn.read`), and what holds there holds of it (`step_read`). Names in UTF-8 are of
that kind, and so are others that no second name is read as and that no rewritten message has.

* `lossy_name_hides`: of two names that are read alike, the one is described with the parameters of
  the other;
* **`statements_follow`**: what was looked up for a `Bind` or `Describe` that the server does not
  skip is its own rewrite of the statement, and each `ParameterDescription` has as many of the
  proxy's parameters hidden as the described statement has;
* **`markers_owed`**: the queue has one marker for each `ReadyForQuery` the server owes.
-/

namespace Postvec.Proxy

open Machine List Option
open Shared (settle)

variable {N R : Type} {calls : R → Nat} {names : Names N} {wire : Text → N}

/-! ## 1. The names read -/

/-- The name is the one that stands for its text. -/
def Request.apart [DecidableEq N] (names : Names N) (wire : Text → N)
    (request : Request N R) : Bool :=
  request.name.all fun n => n = wire (names.text n)

/-- What goes to the server goes under the name that stands for its text. -/
def Conn.apart [DecidableEq N] (names : Names N) (wire : Text → N) (s : Conn N R) : Act N R → Bool
  | .forward rebound => s.held.all fun (request, known) =>
      (Message.sent names rebound ⟨request, known.getD none⟩).request.apart names wire
  | _ => true

def Server.read (wire : Text → N) (b : Server N R) : Server Text R :=
  ⟨fun t => b.statements (wire t), b.skipping⟩

/-- The connection with all names read. -/
def Conn.read (names : Names N) (wire : Text → N) (s : Conn N R) : Conn Text R where
  replies := s.replies
  held := s.held.map fun (request, known) => (request.map names.text, known)
  fresh := s.fresh
  inbox := s.inbox.map (·.map names.text)
  server := s.server.read wire
  outbox := s.outbox

def Act.map {M : Type} (f : N → M) : Act N R → Act M R
  | .read request => .read (request.map f)
  | .look => .look
  | .forward rebound => .forward rebound
  | .serve o => .serve o
  | .settle => .settle

@[simp] theorem asks_map {M : Type} (f : N → M) (request : Request N R) :
    (request.map f).asks = request.asks.map f := by
  cases request <;> rfl

@[simp] theorem ends_map {M : Type} (f : N → M) (request : Request N R) :
    (request.map f).ends = request.ends := by
  cases request <;> rfl

/-- What goes out is read as what came in. -/
theorem sent_map (m : Message N R) (rebound : Bool) :
    (m.sent names rebound).map names.text = m.map names.text := by
  obtain ⟨request, known⟩ := m
  cases request with
  | parse name rewrite =>
    cases rewrite with
    | none => rfl
    | some rewrite => simp [Message.sent, Message.map, Request.map, names.text_bytes]
  | bind name =>
    unfold Message.sent
    dsimp only
    split
    · simp [Message.map, Request.map, names.text_bytes]
    · rfl
  | _ => rfl

section Read

variable [DecidableEq N] {b : Server N R} {n : N}

theorem apart_name {request : Request N R} (h : request.apart names wire = true)
    (hn : request.name = some n) : n = wire (names.text n) := by
  rw [Request.apart, hn] at h
  exact of_decide_eq_true h

omit [DecidableEq N] in
theorem read_statements (hn : n = wire (names.text n)) :
    (b.read wire).statements (names.text n) = b.statements n :=
  congrArg b.statements hn.symm

theorem read_set (hw : ∀ t, names.text (wire t) = t) (hn : n = wire (names.text n))
    (s : Option (Option R)) : (b.set n s).read wire = (b.read wire).set (names.text n) s := by
  unfold Server.set Server.read
  congr 1
  funext t
  by_cases e : t = names.text n
  · subst e
    rw [← hn]
    simp
  · have hne : wire t ≠ n := fun h => e (by rw [← h, hw])
    simp [e, hne]

/-- The server does the same with a message and with the message read. -/
theorem serve_read (hw : ∀ t, names.text (wire t) = t) {request : Request N R}
    (hr : request.apart names wire = true) (o : Outcome) :
    (b.read wire).serve calls [] (request.map names.text) o =
      (b.serve calls (names.bytes []) request o).map fun (b, answers) =>
      (b.read wire, answers) := by
  -- the unnamed statement has one name
  have hnil : names.bytes [] = wire (names.text (names.bytes [])) := by
    rw [names.text_bytes]
    exact (names.unnamed _ (hw [])).symm
  have hempty : ∀ n, names.text n = [] ↔ n = names.bytes [] := fun n =>
    ⟨names.unnamed n, fun h => by rw [h, names.text_bytes]⟩
  have hunnamed : (b.set (names.bytes []) none).read wire = (b.read wire).set [] none := by
    rw [read_set hw hnil, names.text_bytes]
  cases request with
  | parse name rewrite =>
    have hn := apart_name hr rfl
    cases o with
    | ok last =>
      simp only [Request.map, Server.serve, read_statements hn, ne_eq, hempty, ← read_set hw hn]
      split <;> rfl
    | fail half =>
      simp only [Request.map, Server.serve, hempty, ← hunnamed]
      split <;> rfl
    | ran answers => rfl
  | bind name | describe name =>
    have hn := apart_name hr rfl
    cases o with
    | ok last | fail half =>
      simp only [Request.map, Server.serve, Server.rewrite, read_statements hn]
      first | rfl | (split <;> rfl)
    | ran answers => rfl
  | close name =>
    have hn := apart_name hr rfl
    cases o with
    | ok last =>
      simp only [Request.map, Server.serve, ← read_set hw hn]
      rfl
    | fail | ran => rfl
  | describePortal | execute =>
    cases o with
    | ok last =>
      simp only [Request.map, Server.serve]
      split <;> rfl
    | fail | ran => rfl
  | query =>
    cases o with
    | ran answers =>
      simp only [Request.map, Server.serve, ← hunnamed]
      split <;> rfl
    | ok | fail => rfl
  | closePortal | flush | sync => cases o <;> rfl

theorem next_read (hw : ∀ t, names.text (wire t) = t) {request : Request N R}
    (hr : request.apart names wire = true) (o : Outcome) :
    (b.read wire).next calls [] (request.map names.text) o =
      (b.next calls (names.bytes []) request o).map fun (b, answers) => (b.read wire, answers) := by
  have h : (b.read wire).serve calls [] (request.map names.text) o = _ := serve_read hw hr o
  cases request with
  | sync => exact h
  | _ =>
    unfold Server.next
    dsimp only [Request.map] at h ⊢
    rw [h]
    show (if b.skipping then _ else _) = _
    split <;> rfl

/-- **A step is a step of the connection with the names read.** -/
theorem step_read (hw : ∀ t, names.text (wire t) = t) {s s' : Conn N R} {a : Act N R}
    (hin : ∀ m ∈ s.inbox, m.request.apart names wire = true) (hc : s.apart names wire a = true)
    (h : s.step calls names a = some s') :
    (s.read names wire).step calls .utf8 (a.map names.text) = some (s'.read names wire) ∧
      ∀ m ∈ s'.inbox, m.request.apart names wire = true := by
  obtain ⟨replies, held, fresh, inbox, server, outbox⟩ := s
  cases a with
  | read request =>
    cases held with
    | some held => cases h
    | none =>
      cases request with
      | query =>
        obtain ⟨hf, h⟩ := guarded h
        cases h
        exact ⟨if_pos hf, hin⟩
      | _ =>
        cases h
        exact ⟨rfl, hin⟩
  | look =>
    cases held with
    | none => cases h
    | some held =>
      obtain ⟨request, _ | known⟩ := held
      · obtain ⟨name, hname, h⟩ := bind_eq_some_iff.mp h
        obtain ⟨known, hk, rfl⟩ := map_eq_some_iff.mp h
        refine ⟨?_, hin⟩
        show ((request.map names.text).asks.bind fun name => _) = _
        rw [asks_map, hname, map_some, bind_some]
        exact map_eq_some_iff.mpr ⟨known, hk, rfl⟩
      · cases h
  | forward rebound =>
    cases held with
    | none => cases h
    | some held =>
      obtain ⟨request, known⟩ := held
      obtain ⟨hknown, h⟩ := ite_none_left_eq_some.mp h
      cases h
      constructor
      · show (if (request.map names.text).asks.isSome ∧ known.isNone then none else _) = _
        rw [asks_map, isSome_map, if_neg hknown, map_utf8, sent_utf8]
        simp only [Conn.read, List.map_append, List.map_cons, List.map_nil, sent_map, ends_map]
        rfl
      · intro m hm
        rcases mem_append.mp hm with hm | hm
        · exact hin m hm
        · rw [mem_singleton.mp hm]
          exact hc
  | serve o =>
    cases inbox with
    | nil => cases h
    | cons m inbox =>
      obtain ⟨⟨server', answers⟩, hnext, rfl⟩ := map_eq_some_iff.mp h
      refine ⟨?_, fun m' hm' => hin m' (mem_cons_of_mem _ hm')⟩
      show (((server.read wire).next calls [] (m.request.map names.text) o).map _) = _
      rw [next_read hw (hin m mem_cons_self), hnext]
      rfl
  | settle =>
    cases outbox with
    | nil => cases h
    | cons reply outbox =>
      cases h
      exact ⟨rfl, hin⟩

/-- The invariant of a connection with the names read. -/
theorem inv_read (hw : ∀ t, names.text (wire t) = t) {s : Conn N R}
    (h : Reach (Conn.step calls names) (fun s a => s.apart names wire a = true) .start s) :
    Inv calls (s.read names wire) ∧ ∀ m ∈ s.inbox, m.request.apart names wire = true := by
  refine h.invariant (I := fun s => Inv calls (s.read names wire) ∧
    ∀ m ∈ s.inbox, m.request.apart names wire = true) ⟨inv_start, fun m hm => by cases hm⟩ ?_
  intro s a s' hI hc hs
  obtain ⟨hstep, hin⟩ := step_read hw hI.2 hc hs
  exact ⟨hI.1.step hstep, hin⟩

end Read

/-! ## 2. Two names that are read alike -/

/-- A name in UTF-8, as its text, or a single byte that is not. -/
def latin1 : Names (Text ⊕ UInt8) where
  text := Sum.elim id fun _ => ['\uFFFD']
  bytes := .inl
  text_bytes := fun _ => rfl
  unnamed := fun n h => by
    cases n with
    | inl t => rw [show t = [] from h]
    | inr c => cases h

/-- A statement is parsed under `é`, one with a call under `è`, and the first is described. -/
def confused : List (Act (Text ⊕ UInt8) Nat) :=
  [.read (.parse (.inr 0xE9) none), .forward false, .read (.parse (.inr 0xE8) (some 1)),
    .forward false, .read (.describe (.inr 0xE9)), .look, .forward false,
    .serve (.ok .parseComplete), .settle, .serve (.ok .parseComplete), .settle]

/-- **A parameter too many is hidden.** The server comes to a `Describe` of a statement without a
    call, for which a rewrite with one call was looked up; and from its `ParameterDescription`,
    which has none of the proxy's parameters, one is hidden. -/
theorem lossy_name_hides :
    ∃ s s', Reach (Conn.step id latin1) (fun _ _ => True) .start s ∧
      s.server.skipping = false ∧ s.inbox.map (fun m => (m.request.asks, m.known)) =
        [(some (.inr 0xE9), some 1)] ∧ s.server.statements (.inr 0xE9) = some none ∧
      s.step id latin1 (.serve (.ok .noData)) = some s' ∧
      s'.outbox.head? = some (.parameterDescription, 0) ∧
      (settle s'.replies .parameterDescription).1 = 1 := by
  let p : Conn (Text ⊕ UInt8) Nat → Bool := fun s =>
    decide (s.server.skipping = false ∧ s.inbox.map (fun m => (m.request.asks, m.known)) =
      [(some (.inr 0xE9), some 1)] ∧ s.server.statements (.inr 0xE9) = some none) &&
    (s.step id latin1 (.serve (.ok .noData))).any fun s' =>
      decide (s'.outbox.head? = some (.parameterDescription, 0) ∧
        (settle s'.replies .parameterDescription).1 = 1)
  have h : (runWhile (Conn.step id latin1) (fun _ _ => True) .start confused).any p = true := by
    decide +kernel
  obtain ⟨s, hs, hp⟩ := Reach.exists_of_runWhile h
  obtain ⟨hp, hs'⟩ := Bool.and_eq_true_iff.mp hp
  obtain ⟨hskip, hin, hst⟩ := of_decide_eq_true hp
  obtain ⟨s', hstep, hout⟩ := (any_eq_true _ _).mp hs'
  exact ⟨s, s', hs, hskip, hin, hst, hstep, of_decide_eq_true hout⟩

/-! ## 3. Names that are told apart -/

variable [DecidableEq N]

/-- **The proxy's view of the statements is the server's.** -/
theorem statements_follow (names : Names N) (wire : Text → N) (hw : ∀ t, names.text (wire t) = t)
    {s : Conn N R}
    (h : Reach (Conn.step calls names) (fun s a => s.apart names wire a = true) .start s) :
    (∀ m inbox, s.inbox = m :: inbox → s.server.skipping = false →
      ∀ name, m.request.asks = some name → m.known = s.server.rewrite name) ∧
    ∀ n outbox, s.outbox = (.parameterDescription, n) :: outbox →
      (settle s.replies .parameterDescription).1 = n := by
  obtain ⟨hI, hin⟩ := inv_read hw h
  refine ⟨fun m inbox hm hb name hname => ?_, fun n outbox hout => ?_⟩
  · have happ : name = wire (names.text name) := by
      refine apart_name (hin m (hm ▸ mem_cons_self)) ?_
      cases hreq : m.request <;> rw [hreq] at hname <;> first | exact hname | cases hname
    have hread : (s.read names wire).inbox = m.map names.text :: inbox.map (·.map names.text) := by
      rw [Conn.read, hm]
      rfl
    have hhead := hI.head hread hb (names.text name) (by simp [Message.map, hname])
    rw [Server.rewrite, ← read_statements happ]
    exact hhead
  · obtain ⟨r', hset, -⟩ := hI.synced
    rw [show (s.read names wire).outbox = _ from hout] at hset
    cases hset with
    | cons hf _ =>
      obtain ⟨e, q, hq, ⟨he, -⟩, hx⟩ := hf
      rw [settle_pop rfl (r := s.replies) hq he]
      exact hx

/-- The names of a run: the byte `é` stands for the text it is read as. -/
def wired (t : Text) : Text ⊕ UInt8 := if t = ['\uFFFD'] then .inr 0xE9 else .inl t

theorem wired_text (t : Text) : latin1.text (wired t) = t := by
  unfold wired
  split
  · rename_i h
    exact h.symm
  · rfl

/-- One cycle: a statement without a call is parsed under `é`, and one with two calls under `s`,
    which is described and bound. The server has just described it. -/
def pipelined : List (Act (Text ⊕ UInt8) Nat) :=
  [.read (.parse (.inr 0xE9) none), .forward false, .read (.parse (.inl ['s']) (some 2)),
    .forward false, .read (.describe (.inl ['s'])), .look, .forward false,
    .read (.bind (.inl ['s'])), .look, .forward true, .read .sync, .forward false,
    .serve (.ok .parseComplete), .serve (.ok .parseComplete), .serve (.ok .noData),
      .settle, .settle]

theorem pipelined_follow :
    ∃ s, Reach (Conn.step id latin1) (fun s a => s.apart latin1 wired a = true) .start s ∧
      (∃ m inbox, s.inbox = m :: inbox ∧ m.request.asks = some (.inl ['s']) ∧
        m.known = s.server.rewrite (.inl ['s'])) ∧
      ∃ outbox, s.outbox = (.parameterDescription, 2) :: outbox ∧
        (settle s.replies .parameterDescription).1 = 2 := by
  have hrun : (runWhile (Conn.step id latin1) (fun s a => s.apart latin1 wired a = true) .start
      pipelined).any (fun s => decide (s.server.skipping = false ∧
        (s.inbox.head?.bind (·.request.asks)) = some (.inl ['s']) ∧
        s.outbox.head? = some (.parameterDescription, 2))) = true := by decide +kernel
  obtain ⟨s, hs, hp⟩ := Reach.exists_of_runWhile hrun
  obtain ⟨hb, hin, hout⟩ := of_decide_eq_true hp
  obtain ⟨h1, h2⟩ := statements_follow latin1 wired wired_text hs
  obtain ⟨m, hm, hasks⟩ := bind_eq_some_iff.mp hin
  obtain ⟨inbox, hinbox⟩ := List.head?_eq_some_iff.mp hm
  obtain ⟨outbox, houtbox⟩ := List.head?_eq_some_iff.mp hout
  exact ⟨s, hs, ⟨m, inbox, hinbox, hasks, h1 m inbox hinbox hb _ hasks⟩, outbox, houtbox,
    h2 2 outbox houtbox⟩

/-- **The markers stay in step.** The queue has one marker for each `ReadyForQuery` the server owes:
    those on their way, and those of the messages it has not come to. With all replies booked, the
    queue is what is owed for these messages, after what the server has skipped. -/
theorem markers_owed (names : Names N) (wire : Text → N) (hw : ∀ t, names.text (wire t) = t)
    {s : Conn N R}
    (h : Reach (Conn.step calls names) (fun s a => s.apart names wire a = true) .start s) :
    s.replies.queue.countP (·.kind.marker) =
      s.outbox.countP (·.1 = .ready) + s.inbox.countP (·.request.ends) ∧
    (s.outbox = [] → ∃ stale k,
      s.replies.queue = stale ++ entries calls k (s.inbox.map (·.map names.text)) ∧
      stale.countP (·.kind.marker) = 0 ∧ (s.server.skipping = false → stale = [])) := by
  obtain ⟨hI, -⟩ := inv_read hw h
  obtain ⟨r', hset, hsync⟩ := hI.synced
  obtain ⟨stale, k, hq, hm, hs⟩ : ∃ stale k,
      r'.queue = stale ++ entries calls k (s.inbox.map (·.map names.text)) ∧
      stale.countP (·.kind.marker) = 0 ∧ (s.server.skipping = false → stale = []) := by
    cases hsync with
    | going _ hq => exact ⟨[], _, hq, rfl, fun _ => rfl⟩
    | skipping stale k _ hb hq _ hm =>
      refine ⟨stale, k, hq, by simpa using hm, fun h => ?_⟩
      rw [show s.server.skipping = true from hb] at h
      cases h
  refine ⟨?_, fun hout => ⟨stale, k, ?_, hm, hs⟩⟩
  · have hmarks := hset.markers
    rw [hq, countP_append, countP_entries, hm, Nat.zero_add, countP_map] at hmarks
    refine hmarks.trans (congrArg _ (countP_congr fun m _ => ?_))
    simp [Message.map]
  · rw [show (s.read names wire).outbox = _ from hout] at hset
    cases hset
    exact hq

theorem pipelined_markers :
    ∃ s, Reach (Conn.step id latin1) (fun s a => s.apart latin1 wired a = true) .start s ∧
      s.inbox.countP (·.request.ends) = 1 ∧
      s.replies.queue.countP (·.kind.marker) = s.outbox.countP (·.1 = .ready) + 1 := by
  have hrun : (runWhile (Conn.step id latin1) (fun s a => s.apart latin1 wired a = true) .start
      pipelined).any (fun s => decide (s.inbox.countP (·.request.ends) = 1)) = true := by
    decide +kernel
  obtain ⟨s, hs, hp⟩ := Reach.exists_of_runWhile hrun
  have hone := of_decide_eq_true hp
  exact ⟨s, hs, hone, hone ▸ (markers_owed latin1 wired wired_text hs).1⟩

end Postvec.Proxy
