import Postvec.Managed.Proxy

/-!
# Booking the server's replies

When every reply on its way has been booked, the queue consists of the messages the server has not
yet processed, after an error preceded by those it has skipped, and the statements are the server's
(`Synced`). A reply that is booked is one reply less to be booked; the other two things that happen
to a connection are

* a new message: it goes to the end of the queue, past everything the replies on their way can reach
  (`Settles.push`);
* a message that the server processes or skips: what it does to the server's statements its replies
  will do to the proxy's (`Synced.next`).
-/

namespace Postvec.Proxy

open Machine List
open Shared (settle skip)

variable {R : Type} {calls : R → Nat} {b : Back}

/-! ## 1. Booking -/

section Apply

variable (r : Replies R) (st : List (Text × Option R))

theorem apply_frame : r.apply st = { r with statements := (r.apply st).statements } := by
  induction st generalizing r with
  | nil => rfl
  | cons s st ih =>
    show Replies.apply _ st = { r with statements := (Replies.apply _ st).statements }
    rw [ih]

@[simp] theorem apply_queue : (r.apply st).queue = r.queue := by rw [apply_frame]

@[simp] theorem apply_copyIn : (r.apply st).copyIn = r.copyIn := by rw [apply_frame]

@[simp] theorem apply_sent : (r.apply st).sent = r.sent := by rw [apply_frame]

@[simp] theorem apply_done : (r.apply st).done = r.done := by rw [apply_frame]

@[simp] theorem apply_failed : (r.apply st).failed = r.failed := by rw [apply_frame]

/-- What a reply says about a name, the last one if there are several. -/
def said (st : List (Text × Option R)) (name : Text) : Option (Option R) :=
  (st.reverse.find? fun s => s.1 = name).map Prod.snd

theorem apply_statements (name : Text) :
    (r.apply st).statements name = (said st name).getD (r.statements name) := by
  induction st using List.reverseRecOn with
  | nil => rfl
  | append_singleton st s ih =>
    have hsnoc : (r.apply (st ++ [s])).statements =
        Function.update (r.apply st).statements s.1 s.2 := by
      rw [Replies.apply, foldl_append]
      rfl
    rw [hsnoc, said, reverse_append]
    by_cases e : s.1 = name
    · subst e
      simp
    · rw [Function.update_of_ne (Ne.symm e), ih]
      simp [said, e]

end Apply

/-- A failed unnamed `Parse` is among the replies. -/
def ended (failed : Option Nat) (stale : List (Reply R)) : Bool :=
  stale.any fun e => e.kind = .parse ∧ failed = some e.seq ∧ e.statements.any (·.1.isEmpty)

variable {r : Replies R} {stale : List (Reply R)} {e : Reply R}

/-- What is booked up to the end of a cycle. -/
theorem skip_stale {rest : List (Reply R)}
    (hs : ∀ a ∈ stale, a.kind.marker = false) (he : e.kind.marker = true) :
    ∃ st, skip r (stale ++ e :: rest) =
        { r with statements := st, done := e.seq, queue := rest } ∧
      ∀ name, st name = (said e.statements name).getD
        (if name = [] ∧ ended r.failed stale = true then none else r.statements name) := by
  induction stale generalizing r with
  | nil =>
    refine ⟨(r.apply e.statements).statements, ?_, fun name => ?_⟩
    · show skip r (e :: rest) = _
      rw [skip, if_pos he, apply_frame]
    · rw [apply_statements, if_neg (by simp [ended])]
  | cons a stale ih =>
    have hs' : ∀ b ∈ stale, b.kind.marker = false := fun b hb => hs b (mem_cons_of_mem _ hb)
    have ha := hs a mem_cons_self
    show ∃ st, skip r (a :: (stale ++ e :: rest)) = _ ∧ _
    rw [skip, ha, if_neg Bool.false_ne_true]
    by_cases hf : a.kind = .parse ∧ r.failed = some a.seq ∧ a.statements.any (·.1.isEmpty)
    · rw [if_pos hf]
      obtain ⟨st, hskip, hst⟩ := ih (r := r.apply [([], none)]) hs'
      refine ⟨st, ?_, fun name => ?_⟩
      · rw [hskip, apply_frame]
      · have hend : ended r.failed (a :: stale) = true := by simp [ended, hf]
        rw [hst, hend, apply_failed, apply_statements]
        congr 1
        by_cases e : name = []
        · subst e
          simp [said]
        · rw [if_neg (fun h => e h.1), if_neg (fun h => e h.1)]
          simp [said, Ne.symm e]
    · rw [if_neg hf]
      obtain ⟨st, hskip, hst⟩ := ih (r := r) hs'
      refine ⟨st, hskip, fun name => ?_⟩
      have hend : ended r.failed (a :: stale) = ended r.failed stale := by
        rw [ended, any_cons, decide_eq_false hf, Bool.false_or]
        rfl
      rw [hst, hend]

/-- The reply finds in the queue what it is about. -/
def Fits (r : Replies R) (b : Back × Nat) : Prop :=
  match b.1 with
  | .parseComplete | .closeComplete =>
    ∃ e q, r.queue = e :: q ∧ e.kind ≠ .lifecycle ∧ e.kind.marker = false
  | .parameterDescription =>
    ∃ e q, r.queue = e :: q ∧ (e.kind ≠ .lifecycle ∧ e.kind.marker = false) ∧ e.extra = b.2
  | .ready => ∃ stale e q, r.queue = stale ++ e :: q ∧ e.kind.marker = true ∧
      ∀ a ∈ stale, a.kind.marker = false
  | .copyIn => False
  | _ => True

/-- The replies `bs` are booked, each of them where it fits. -/
inductive Settles : Replies R → List (Back × Nat) → Replies R → Prop where
  | nil (r : Replies R) : Settles r [] r
  | cons {r r' : Replies R} {b : Back × Nat} {bs : List (Back × Nat)} (hf : Fits r b)
      (h : Settles (settle r b.1).2 bs r') : Settles r (b :: bs) r'

variable {r' : Replies R} {bs : List (Back × Nat)}

theorem Settles.append {r'' : Replies R} {cs : List (Back × Nat)} (h : Settles r bs r')
    (h' : Settles r' cs r'') : Settles r (bs ++ cs) r'' := by
  induction h with
  | nil r => exact h'
  | cons hf _ ih => exact .cons hf (ih h')

/-- A reply that is counted and nothing else. -/
def Back.counted : Back → Bool
  | .parseComplete | .closeComplete | .parameterDescription | .ready | .copyIn => false
  | _ => true

theorem settle_counted (h : b.counted = true) :
    settle r b = (0, Shared.count r b) := by
  cases b <;> first | rfl | cases h

/-- Counting touches nothing else. -/
theorem count_frame (r : Replies R) (b : Back) : Shared.count r b =
    { r with done := (Shared.count r b).done, failed := (Shared.count r b).failed } := by
  unfold Shared.count
  split
  · rfl
  · split <;> rfl

variable {q : List (Reply R)}

/-- A reply that takes the head of the queue. -/
def Back.pops : Back → Bool
  | .parseComplete | .closeComplete | .parameterDescription => true
  | _ => false

theorem settle_pop (hb : b.pops = true)
    (hq : r.queue = e :: q) (he : e.kind ≠ .lifecycle) :
    settle r b =
      (e.extra, ({ Shared.count r b with queue := q } : Replies R).apply e.statements) := by
  have hdrop : ((Shared.count r b).queue.dropWhile fun reply => reply.kind = .lifecycle) =
      e :: q := by
    rw [count_frame, hq]
    exact dropWhile_cons_of_neg (by simp [he])
  cases b with
  | parseComplete | closeComplete | parameterDescription => simp only [settle, hdrop]
  | _ => cases hb

theorem settle_ready (hq : r.queue = stale ++ e :: q) (hs : ∀ a ∈ stale, a.kind.marker = false)
    (he : e.kind.marker = true) :
    ∃ st, (settle r .ready).2 =
        { r with copyIn := false, statements := st, done := e.seq, queue := q, failed := none } ∧
      ∀ name, st name = (said e.statements name).getD
        (if name = [] ∧ ended r.failed stale = true then none else r.statements name) := by
  obtain ⟨st, hskip, hst⟩ := @skip_stale R { r with copyIn := false } stale e q hs he
  refine ⟨st, ?_, hst⟩
  rw [← hq] at hskip
  show ({ skip { r with copyIn := false } r.queue with failed := none } : Replies R) = _
  rw [hskip]

/-- A reply that fits is counted, takes the head of the queue, or ends a cycle, and fits wherever it
    finds the same. -/
theorem Fits.shape {b : Back × Nat} (h : Fits r b) :
    b.1.counted = true ∧ (∀ r', Fits (R := R) r' b) ∨
    (∃ e q, b.1.pops = true ∧ r.queue = e :: q ∧ e.kind ≠ .lifecycle ∧
      ∀ r' q', r'.queue = e :: q' → Fits r' b) ∨
    b.1 = .ready ∧ ∃ stale e q, r.queue = stale ++ e :: q ∧ e.kind.marker = true ∧
      ∀ a ∈ stale, a.kind.marker = false := by
  obtain ⟨b, n⟩ := b
  cases b with
  | parseComplete | closeComplete =>
    obtain ⟨e, q, hq, he, hm⟩ := h
    exact .inr (.inl ⟨e, q, rfl, hq, he, fun r' q' hq' => ⟨e, q', hq', he, hm⟩⟩)
  | parameterDescription =>
    obtain ⟨e, q, hq, he, hx⟩ := h
    exact .inr (.inl ⟨e, q, rfl, hq, he.1, fun r' q' hq' => ⟨e, q', hq', he, hx⟩⟩)
  | ready => exact .inr (.inr ⟨rfl, h⟩)
  | copyIn => cases h
  | bindComplete | commandComplete | emptyQuery | portalSuspended | noData | rowDescription
  | functionResponse | error | other => exact .inl ⟨rfl, fun _ => trivial⟩

/-! ## 2. A new message -/

/-- New replies at the end of the queue. -/
def Replies.extend (r : Replies R) (es : List (Reply R)) (sent : Nat) : Replies R :=
  { r with queue := r.queue ++ es, sent := sent }

theorem count_extend (r : Replies R) (es : List (Reply R)) (n : Nat) (b : Back) :
    Shared.count (r.extend es n) b = (Shared.count r b).extend es n := by
  by_cases hf : b.final = true
  · simp only [Shared.count, hf, if_true]
    rfl
  · by_cases he : b = .error ∧ r.failed = none
    · simp only [Shared.count, he, Replies.extend, and_self, if_true]
      rfl
    · simp only [Shared.count, hf, he, Replies.extend, Bool.false_eq_true, if_false]

theorem apply_extend (r : Replies R) (es : List (Reply R)) (n : Nat) (st : List (Text × Option R)) :
    (r.extend es n).apply st = (r.apply st).extend es n := by
  induction st generalizing r with
  | nil => rfl
  | cons s st ih => exact ih { r with statements := Function.update r.statements s.1 s.2 }

/-- A reply that fits is not disturbed by what comes after. -/
theorem Fits.extend {b : Back × Nat} (h : Fits r b) (es : List (Reply R)) (n : Nat) :
    Fits (r.extend es n) b ∧
      (settle (r.extend es n) b.1).2 = (settle r b.1).2.extend es n := by
  rcases h.shape with ⟨hc, hfit⟩ | ⟨e, q, hb, hq, he, hfit⟩ | ⟨hb, stale, e, q, hq, he, hs⟩
  · refine ⟨hfit _, ?_⟩
    rw [settle_counted hc, settle_counted hc]
    exact count_extend r es n b.1
  · have hq' : (r.extend es n).queue = e :: (q ++ es) := by
      show r.queue ++ es = _
      rw [hq]
      rfl
    refine ⟨hfit _ _ hq', ?_⟩
    rw [settle_pop hb hq he, settle_pop hb hq' he, count_extend]
    exact apply_extend { Shared.count r b.1 with queue := q } es n e.statements
  · have hq' : (r.extend es n).queue = stale ++ e :: (q ++ es) := by
      show r.queue ++ es = _
      rw [hq, append_assoc]
      rfl
    obtain ⟨st, h1, hst⟩ := settle_ready hq hs he
    obtain ⟨st', h1', hst'⟩ := settle_ready hq' hs he
    have hst : st' = st := funext fun name => (hst' name).trans (hst name).symm
    obtain ⟨b, k⟩ := b
    cases hb
    refine ⟨⟨stale, e, q ++ es, hq', he, hs⟩, ?_⟩
    rw [h1, h1', hst]
    rfl

/-- **A new message does not change what the replies on their way will do.** -/
theorem Settles.push (h : Settles r bs r')
    (es : List (Reply R)) (n : Nat) : Settles (r.extend es n) bs (r'.extend es n) := by
  induction h with
  | nil r => exact .nil _
  | cons hf _ ih =>
    obtain ⟨hf', hs⟩ := hf.extend es n
    refine .cons hf' ?_
    rw [hs]
    exact ih

/-! ## 3. The queue of the messages -/

def Request.extended : Request Text R → Bool
  | .flush | .sync | .query => false
  | _ => true

def Message.width (m : Message Text R) : Nat := if m.request.extended then 1 else 0

/-- The reply a message is owed. -/
def entry (calls : R → Nat) (seq : Nat) (m : Message Text R) : List (Reply R) :=
  match m.request with
  | .parse name rewrite => [⟨.parse, 0, [(name, rewrite)], seq⟩]
  | .describe _ => [⟨.params, hidden calls m.known, [], seq⟩]
  | .close name => [⟨.close, 0, [(name, none)], seq⟩]
  | .closePortal => [⟨.close, 0, [], seq⟩]
  | .sync => [⟨.sync, 0, [], seq⟩]
  | .query => [⟨.query, 0, [([], none)], seq⟩]
  | _ => []

def entries (calls : R → Nat) : Nat → List (Message Text R) → List (Reply R)
  | _, [] => []
  | k, m :: ms => entry calls k m ++ entries calls (k + m.width) ms

def widths : List (Message Text R) → Nat
  | [] => 0
  | m :: ms => m.width + widths ms

theorem entries_append (k : Nat) (ms ms' : List (Message Text R)) :
    entries calls k (ms ++ ms') = entries calls k ms ++ entries calls (k + widths ms) ms' := by
  induction ms generalizing k with
  | nil => rfl
  | cons m ms ih =>
    show entry calls k m ++ entries calls (k + m.width) (ms ++ ms') = _
    rw [ih, Nat.add_assoc, ← append_assoc]
    rfl

theorem widths_snoc (ms : List (Message Text R)) (m : Message Text R) :
    widths (ms ++ [m]) = widths ms + m.width := by
  induction ms with
  | nil => exact Nat.add_comm _ _
  | cons m' ms ih =>
    show m'.width + widths (ms ++ [m]) = m'.width + widths ms + m.width
    rw [ih, Nat.add_assoc]

theorem forward_eq (h : r.copyIn = false) (m : Message Text R) :
    r.forward calls m = r.extend (entry calls r.sent m) (r.sent + m.width) := by
  obtain ⟨request, known⟩ := m
  cases request <;> simp [Replies.forward, Shared.sent, Replies.extend, Replies.push, entry,
    Message.width, Request.extended, Front.extended, h]

/-! ## 4. The server and the queue -/

/-- Everything on its way is booked. -/
inductive Synced (calls : R → Nat) (r : Replies R) (b : Server Text R)
    (ms : List (Message Text R)) : Prop where
  | going (hb : b.skipping = false) (hq : r.queue = entries calls r.done ms)
      (hn : r.sent = r.done + widths ms) (hf : r.failed = none)
      (hs : ∀ name, r.statements name = b.rewrite name)
  /-- After an error: the reply of the failed message, if it is owed one, and of those skipped. -/
  | skipping (stale : List (Reply R)) (k j : Nat) (hb : b.skipping = true)
      (hq : r.queue = stale ++ entries calls k ms) (hn : r.sent = k + widths ms)
      (hm : ∀ e ∈ stale, e.kind.marker = false) (hf : r.failed = some j) (hj : j < k)
      (hs : ∀ name, b.rewrite name =
        if name = [] ∧ ended (some j) stale = true then none else r.statements name)

theorem rewrite_set (b : Server Text R) (name name' : Text) (s : Option (Option R)) :
    (b.set name s).rewrite name' = if name' = name then s.join else b.rewrite name' := by
  unfold Server.rewrite Server.set
  by_cases e : name' = name
  · subst e
    simp
  · simp [e]

section Next

variable {b b' : Server Text R} {m : Message Text R} {ms : List (Message Text R)}

/-- The message is done, and its reply counted. -/
theorem synced_final {last : Back} (hl : last.counted = true ∧ last.final = true)
    (hb : b.skipping = false)
    (hq : r.queue = entries calls (r.done + 1) ms) (hn : r.sent = r.done + 1 + widths ms)
    (hf : r.failed = none) (hs : ∀ name, r.statements name = b.rewrite name) :
    ∃ r', Settles r [(last, 0)] r' ∧ Synced calls r' b ms := by
  refine ⟨{ r with done := r.done + 1 }, .cons ?_ ?_, .going hb hq hn hf hs⟩
  · obtain ⟨hc, -⟩ := hl
    cases last <;> first | exact trivial | cases hc
  · rw [settle_counted hl.1, Shared.count, if_pos hl.2]
    exact .nil _

/-- The message fails: what it is owed stays in the queue. -/
theorem synced_error (stale : List (Reply R)) (hb' : b'.skipping = true)
    (hq : r.queue = stale ++ entries calls (r.done + 1) ms) (hn : r.sent = r.done + 1 + widths ms)
    (hm : ∀ e ∈ stale, e.kind.marker = false) (hf : r.failed = none)
    (hs : ∀ name, b'.rewrite name =
      if name = [] ∧ ended (some r.done) stale = true then none else r.statements name) :
    ∃ r', Settles r [(.error, 0)] r' ∧ Synced calls r' b' ms := by
  refine ⟨{ r with failed := some r.done }, .cons trivial ?_,
    .skipping stale (r.done + 1) r.done hb' hq hn hm rfl (Nat.lt_succ_self _) hs⟩
  rw [settle_counted rfl, Shared.count, if_neg (by decide), if_pos ⟨rfl, hf⟩]
  exact .nil _

/-- The message is done with the reply at the head of the queue. -/
theorem synced_pop {kind : Back}
    (hk : kind = .parseComplete ∨ kind = .closeComplete) (hb' : b'.skipping = false)
    (he : e.kind ≠ .lifecycle ∧ e.kind.marker = false)
    (hq : r.queue = e :: entries calls (r.done + 1) ms) (hn : r.sent = r.done + 1 + widths ms)
    (hf : r.failed = none)
    (hs : ∀ name, b'.rewrite name = (said e.statements name).getD (r.statements name)) :
    ∃ r', Settles r [(kind, 0)] r' ∧ Synced calls r' b' ms := by
  have hfin : kind.final = true ∧ kind.pops = true := by
    rcases hk with rfl | rfl <;> exact ⟨rfl, rfl⟩
  refine ⟨_, .cons ?_ (.nil _), ?_⟩
  · rcases hk with rfl | rfl <;> exact ⟨e, _, hq, he⟩
  · rw [settle_pop hfin.2 hq he.1, Shared.count, if_pos hfin.1]
    refine .going hb' ?_ ?_ ?_ fun name => ?_
    · rw [apply_queue, apply_done]
    · rw [apply_sent, apply_done]
      exact hn
    · rw [apply_failed]
      exact hf
    · rw [apply_statements]
      exact (hs name).symm

/-- The statements of the server do not change when it stops. -/
theorem rewrite_stop (b : Server Text R) (name : Text) : b.stop.rewrite name = b.rewrite name := rfl

theorem said_single (name name' : Text) (v : Option R) :
    said [(name, v)] name' = if name' = name then some v else none := by
  by_cases e : name' = name
  · subst e
    simp [said]
  · simp [said, e, Ne.symm e]

/-- A `ParameterDescription` takes the reply at the head of the queue and nothing else. -/
theorem settles_params
    (hq : r.queue = e :: q) (he : e.kind = .params ∧ e.statements = [])
    (h : Settles { r with queue := q } bs r') :
    Settles r ((.parameterDescription, e.extra) :: bs) r' := by
  have hne : e.kind ≠ .lifecycle := by
    rw [he.1]
    decide
  refine .cons ⟨e, q, hq, ⟨hne, ?_⟩, rfl⟩ ?_
  · rw [he.1]
    rfl
  · rw [settle_pop rfl hq hne, he.2]
    exact h

/-- The replies to a `Query` before its end are counted, and that is undone by its end. -/
theorem settles_answers : ∀ (answers : List Back) (r : Replies R),
    (∀ a ∈ answers, a.counted = true) →
    ∃ d f, Settles r (answers.map (·, 0)) { r with done := d, failed := f }
  | [], r, _ => ⟨r.done, r.failed, .nil _⟩
  | a :: answers, r, h => by
    have ha := h a mem_cons_self
    obtain ⟨d, f, hs⟩ := settles_answers answers (Shared.count r a)
      fun x hx => h x (mem_cons_of_mem _ hx)
    refine ⟨d, f, .cons ?_ ?_⟩
    · cases a <;> first | exact trivial | cases ha
    · rw [count_frame] at hs
      rw [settle_counted ha, count_frame]
      exact hs

variable {answers : List (Back × Nat)} {o : Outcome}

/-- **A message is processed.** -/
theorem Synced.serve (h : Synced calls r b (m :: ms)) (hb : b.skipping = false)
    (hk : ∀ name, m.request.asks = some name → m.known = b.rewrite name) (hsync : m.request ≠ .sync)
    (hserve : b.serve calls [] m.request o = some (b', answers)) :
    ∃ r', Settles r answers r' ∧ Synced calls r' b' ms := by
  cases h with
  | skipping _ _ _ hb' => rw [hb] at hb'; cases hb'
  | going _ hq hn hf hs =>
  obtain ⟨request, known⟩ := m
  have hn : r.sent = r.done + (Message.mk request known).width + widths ms := by
    rw [hn, Nat.add_assoc]
    rfl
  have hstop : ∀ stale : List (Reply R), ended (some r.done) stale = false →
    ∀ name, b.stop.rewrite name =
      if name = [] ∧ ended (some r.done) stale = true then none else r.statements name := by
    intro stale he name
    rw [rewrite_stop, he, if_neg fun h => Bool.false_ne_true h.2]
    exact (hs name).symm
  -- a message whose failure leaves nothing in the queue
  have herr : (Message.mk request known).width = 1 → entry calls r.done ⟨request, known⟩ = [] →
      ∃ r', Settles r [(.error, 0)] r' ∧ Synced calls r' b.stop ms := by
    intro hw he
    rw [hw] at hn
    refine synced_error [] rfl ?_ hn (fun e he => by cases he) hf (hstop [] rfl)
    rw [hq, entries, he, hw]
  -- one whose reply stays
  have hfail : ∀ e : Reply R, r.queue = [e] ++ entries calls (r.done + 1) ms →
      r.sent = r.done + 1 + widths ms → e.kind ≠ .parse ∧ e.kind.marker = false →
      ∃ r', Settles r [(.error, 0)] r' ∧ Synced calls r' b.stop ms := by
    intro e hq hn he
    refine synced_error [e] rfl hq hn (fun a ha => ?_) hf (hstop [e] (by simp [ended, he.1]))
    rw [mem_singleton.mp ha]
    exact he.2
  have hfinal : ∀ {last : Back}, last.counted = true ∧ last.final = true →
      (Message.mk request known).width = 1 → entry calls r.done ⟨request, known⟩ = [] →
      ∃ r', Settles r [(last, 0)] r' ∧ Synced calls r' b ms := by
    intro last hl hw he
    rw [hw] at hn
    refine synced_final hl hb ?_ hn hf hs
    rw [hq, entries, he, hw]
    rfl
  cases request with
  | parse name rewrite =>
    have he : (⟨.parse, 0, [(name, rewrite)], r.done⟩ : Reply R).kind ≠ .lifecycle ∧
        (⟨.parse, 0, [(name, rewrite)], r.done⟩ : Reply R).kind.marker = false := ⟨by simp, rfl⟩
    cases o with
    | ok last =>
      simp only [Server.serve] at hserve
      split at hserve
      · cases hserve
      · cases hserve
        refine synced_pop (.inl rfl) hb he hq hn hf fun name' => ?_
        rw [rewrite_set, said_single, hs]
        split <;> rfl
    | fail half =>
      cases hserve
      refine synced_error [⟨.parse, 0, [(name, rewrite)], r.done⟩] rfl hq hn ?_ hf fun name' => ?_
      · intro e he
        rw [mem_singleton.mp he]
        rfl
      · -- a failed unnamed `Parse` has ended the old statement
        rw [rewrite_stop, hs]
        by_cases e : name = []
        · subst e
          rw [if_pos rfl, rewrite_set]
          simp [ended]
        · rw [if_neg e, if_neg (by simp [ended, e])]
    | ran answers => cases hserve
  | bind name =>
    cases o with
    | ok last =>
      simp only [Server.serve] at hserve
      split at hserve
      · cases hserve
        exact hfinal ⟨rfl, rfl⟩ rfl rfl
      · cases hserve
    | fail half =>
      cases hserve
      exact herr rfl rfl
    | ran answers => cases hserve
  | describe name =>
    have hknown : known = b.rewrite name := hk name rfl
    subst hknown
    cases o with
    | ok last =>
      simp only [Server.serve] at hserve
      split at hserve
      · rename_i hl
        cases hserve
        have hlast : last.counted = true ∧ last.final = true := by
          rcases hl.2 with rfl | rfl <;> exact ⟨rfl, rfl⟩
        obtain ⟨r', h1, h2⟩ := synced_final (r := { r with queue := entries calls (r.done + 1) ms })
          hlast hb rfl hn hf hs
        exact ⟨r', settles_params hq ⟨rfl, rfl⟩ h1, h2⟩
      · cases hserve
    | fail half =>
      simp only [Server.serve] at hserve
      split at hserve
      · cases hserve
        obtain ⟨r', h1, h2⟩ := @synced_error R calls
          { r with queue := entries calls (r.done + 1) ms }
          b.stop ms [] rfl rfl hn (fun e he => by cases he) hf (hstop [] rfl)
        exact ⟨r', settles_params hq ⟨rfl, rfl⟩ h1, h2⟩
      · cases hserve
        exact hfail ⟨.params, hidden calls (b.rewrite name), [], r.done⟩ hq hn ⟨by simp, rfl⟩
    | ran answers => cases hserve
  | describePortal =>
    cases o with
    | ok last =>
      simp only [Server.serve] at hserve
      split at hserve
      · rename_i hl
        cases hserve
        refine hfinal ?_ rfl rfl
        rcases hl with rfl | rfl <;> exact ⟨rfl, rfl⟩
      · cases hserve
    | fail half =>
      cases hserve
      exact herr rfl rfl
    | ran answers => cases hserve
  | execute =>
    cases o with
    | ok last =>
      simp only [Server.serve] at hserve
      split at hserve
      · rename_i hl
        cases hserve
        refine hfinal ?_ rfl rfl
        rcases hl with rfl | rfl | rfl <;> exact ⟨rfl, rfl⟩
      · cases hserve
    | fail half =>
      cases hserve
      exact herr rfl rfl
    | ran answers => cases hserve
  | close name =>
    cases o with
    | ok last =>
      cases hserve
      refine synced_pop (.inr rfl) hb ⟨by simp, rfl⟩ hq hn hf fun name' => ?_
      rw [rewrite_set, said_single, hs]
      split <;> rfl
    | fail half =>
      cases hserve
      exact hfail ⟨.close, 0, [(name, none)], r.done⟩ hq hn ⟨by simp, rfl⟩
    | ran => cases hserve
  | closePortal =>
    cases o with
    | ok last =>
      cases hserve
      exact synced_pop (.inr rfl) hb ⟨by simp, rfl⟩ hq hn hf fun name' => (hs name').symm
    | fail half =>
      cases hserve
      exact hfail ⟨.close, 0, [], r.done⟩ hq hn ⟨by simp, rfl⟩
    | ran => cases hserve
  | flush =>
    cases o with
    | ok last =>
      cases hserve
      exact ⟨r, .nil r, .going hb hq hn hf hs⟩
    | fail | ran => cases hserve
  | sync => exact absurd rfl hsync
  | query =>
    cases o with
    | ok | fail => cases hserve
    | ran answers =>
      simp only [Server.serve] at hserve
      split at hserve
      · rename_i hall
        cases hserve
        have hcounted : ∀ a ∈ answers, a.counted = true := by
          intro a ha
          have := of_decide_eq_true (all_eq_true.mp hall a ha)
          rcases this with rfl | rfl | rfl | rfl <;> rfl
        obtain ⟨d, f, h1⟩ := settles_answers answers r hcounted
        obtain ⟨st, h2, hst⟩ := @settle_ready R { r with done := d, failed := f } [] _ _ hq
          (fun a ha => by cases ha) rfl
        refine ⟨_, h1.append (.cons ⟨[], _, _, hq, rfl, fun a ha => by cases ha⟩ (.nil _)), ?_⟩
        rw [h2]
        refine .going hb rfl hn rfl fun name => ?_
        show st name = _
        rw [hst, rewrite_set, ← hs name]
        by_cases e : name = []
        · subst e
          simp [said]
        · simp [said, ended, e, Ne.symm e]
      · cases hserve

/-- The `ReadyForQuery` of a `Sync`, after an error at its commit or without one. -/
theorem Synced.ready {known : Option R} (h : Synced calls r b (⟨.sync, known⟩ :: ms))
    {f : Option Nat}
    (hfail : b.skipping = true → f = r.failed) :
    ∃ r', Settles { r with failed := f } [(.ready, 0)] r' ∧
      Synced calls r' { b with skipping := false } ms := by
  cases h with
  | going hb hq hn hf hs =>
    obtain ⟨st, h1, hst⟩ := @settle_ready R { r with failed := f } [] _ _ hq
      (fun a ha => by cases ha) rfl
    refine ⟨_, .cons ⟨[], _, _, hq, rfl, fun a ha => by cases ha⟩ (.nil _), ?_⟩
    rw [h1]
    refine .going rfl rfl ?_ rfl fun name => ?_
    · rw [hn]
      show r.done + (0 + widths ms) = r.done + widths ms
      rw [Nat.zero_add]
    · show st name = _
      rw [hst, if_neg (by simp [ended])]
      exact hs name
  | skipping stale k j hb hq hn hmark hf hj hs =>
    obtain ⟨st, h1, hst⟩ := @settle_ready R { r with failed := f } stale _ _ hq hmark rfl
    refine ⟨_, .cons ⟨stale, _, _, hq, rfl, hmark⟩ (.nil _), ?_⟩
    rw [h1]
    refine .going rfl rfl ?_ rfl fun name => ?_
    · rw [hn]
      show k + (0 + widths ms) = k + widths ms
      rw [Nat.zero_add]
    · show st name = b.rewrite name
      rw [hst, hfail hb, hf, hs]
      rfl

/-- **A `Sync`** ends the skipping. -/
theorem Synced.sync (h : Synced calls r b (m :: ms)) (hm : m.request = .sync)
    (hserve : b.serve calls [] .sync o = some (b', answers)) :
    ∃ r', Settles r answers r' ∧ Synced calls r' b' ms := by
  obtain ⟨request, known⟩ := m
  subst hm
  cases o with
  | ok last =>
    cases hserve
    exact h.ready fun _ => rfl
  | fail half =>
    cases hserve
    by_cases hf : r.failed = none
    · have hgoing : b.skipping = true → some r.done = r.failed := by
        intro hb
        cases h with
        | going hb' => rw [hb] at hb'; cases hb'
        | skipping _ _ j _ _ _ _ hf' => rw [hf] at hf'; cases hf'
      obtain ⟨r', h1, h2⟩ := h.ready hgoing
      refine ⟨r', .cons trivial ?_, h2⟩
      rw [settle_counted rfl, Shared.count, if_neg (by decide), if_pos ⟨rfl, hf⟩]
      exact h1
    · obtain ⟨r', h1, h2⟩ := h.ready fun _ => rfl
      refine ⟨r', .cons trivial ?_, h2⟩
      rw [settle_counted rfl, Shared.count, if_neg (by decide), if_neg fun h => hf h.2]
      exact h1
  | ran answers => cases hserve

/-- A message is skipped. -/
theorem Synced.skip (h : Synced calls r b (m :: ms)) (hb : b.skipping = true)
    (hm : m.request.ends = false) : Synced calls r b ms := by
  cases h with
  | going hb' => rw [hb] at hb'; cases hb'
  | skipping stale k j _ hq hn hmark hf hj hs =>
    have hentry : ∀ e ∈ entry calls k m, e.kind.marker = false ∧ e.seq = k := by
      obtain ⟨request, known⟩ := m
      intro e he
      cases request <;> first
        | (cases hm; done)
        | (rw [mem_singleton.mp he]; exact ⟨rfl, rfl⟩)
        | cases he
    have hend : ended (some j) (stale ++ entry calls k m) = ended (some j) stale := by
      rw [ended, any_append]
      have hno : (entry calls k m).any (fun e => e.kind = .parse ∧ some j = some e.seq ∧
          e.statements.any (·.1.isEmpty)) = false := by
        rw [any_eq_false]
        intro e he
        rw [(hentry e he).2]
        simp [Nat.ne_of_lt hj]
      rw [hno, Bool.or_false]
      rfl
    refine .skipping (stale ++ entry calls k m) (k + m.width) j hb ?_ ?_ ?_ hf
      (Nat.lt_of_lt_of_le hj (Nat.le_add_right _ _)) ?_
    · rw [hq, append_assoc]
      rfl
    · rw [hn, Nat.add_assoc]
      rfl
    · intro e he
      rcases mem_append.mp he with he | he
      · exact hmark e he
      · exact (hentry e he).1
    · intro name
      rw [hend]
      exact hs name

theorem next_of_ne_sync (h : m.request ≠ .sync) (o : Outcome) : b.next calls [] m.request o =
    if b.skipping then some (b, []) else b.serve calls [] m.request o := by
  unfold Server.next
  split
  · rename_i e
    exact absurd e h
  · rfl

/-- **The next message.** -/
theorem Synced.next (h : Synced calls r b (m :: ms))
    (hk : b.skipping = false → ∀ name, m.request.asks = some name → m.known = b.rewrite name)
    (hquery : m.request = .query → b.skipping = false)
    (hnext : b.next calls [] m.request o = some (b', answers)) :
    ∃ r', Settles r answers r' ∧ Synced calls r' b' ms := by
  by_cases hsync : m.request = .sync
  · rw [hsync] at hnext
    exact h.sync hsync hnext
  · rw [next_of_ne_sync hsync] at hnext
    split at hnext
    · rename_i hb
      cases hnext
      refine ⟨r, .nil r, h.skip hb ?_⟩
      cases e : m.request <;> first | rfl | exact absurd e hsync | skip
      rw [hquery e] at hb
      cases hb
    · rename_i hb
      have hb := Bool.eq_false_iff.mpr hb
      exact h.serve hb (hk hb) hsync hnext

end Next

end Postvec.Proxy
