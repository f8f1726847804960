import Postvec.Managed.ProxySync

/-!
# The proxy's prepared statements are the server's

A lookup is about a later state of the server, when it comes to the message (`Will`). If it answers,
it answers with the last reply of the current cycle that says something about the name, or with the
settled statement and no reply owed says anything; and if the server does not skip the message,
nothing of its cycle has failed (`will_of_prepared`). With that the invariant of a connection
(`Inv`) is kept by every step.

Here the proxy and the server have the same names; `Managed/ProxyNames.lean` is about others.
-/

namespace Postvec.Proxy

open Machine List Option
open Shared (settle)

variable {R : Type} {calls : R → Nat}

/-! ## 1. What a lookup answers -/

section Lookup

variable {r r' : Replies R} {name : Text} {k : Option R} {bs : List (Back × Nat)}

theorem lookup_some {known : Option R} : ∀ {earlier : Bool} {L : List (Reply R)},
    Shared.lookup name known earlier L = some k →
    (∀ e ∈ L, said e.statements name = none) ∧ k = known ∨
    earlier = false ∧ ∃ C e A, L = C ++ e :: A ∧ said e.statements name = some k ∧
      e.kind.marker = false ∧ ∀ c ∈ C, said c.statements name = none ∧ c.kind.marker = false
  | _, [], h => .inl ⟨fun e he => (by cases he), (Option.some.inj h).symm⟩
  | earlier, e :: L, h => by
    unfold Shared.lookup at h
    dsimp only at h
    split at h
    · rename_i s hs
      have hsaid : said e.statements name = some s.2 := by
        rw [said, hs]
        rfl
      split at h
      · cases h
      · rename_i he
        cases h
        obtain ⟨h1, h2⟩ := Bool.or_eq_false_iff.mp (Bool.eq_false_iff.mpr he)
        exact .inr ⟨h1, [], e, L, rfl, hsaid, h2, fun c hc => by cases hc⟩
    · rename_i hs
      have hsaid : said e.statements name = none := by
        rw [said, hs]
        rfl
      rcases lookup_some h with ⟨hL, hk⟩ | ⟨he, C, e', A, rfl, h1, h2, h3⟩
      · refine .inl ⟨fun x hx => ?_, hk⟩
        rcases mem_cons.mp hx with rfl | hx
        · exact hsaid
        · exact hL x hx
      · obtain ⟨h4, h5⟩ := Bool.or_eq_false_iff.mp he
        refine .inr ⟨h4, e :: C, e', A, rfl, h1, h2, fun c hc => ?_⟩
        rcases mem_cons.mp hc with rfl | hc
        · exact ⟨hsaid, h5⟩
        · exact h3 c hc

/-- The settled statement and nothing owed, or the last reply of the current cycle that says
    something. -/
theorem prepared_some (h : Shared.prepared r name = some k) :
    (∀ e ∈ r.queue, said e.statements name = none) ∧ r.statements name = k ∨
    ∃ A e C, r.queue = A ++ e :: C ∧ said e.statements name = some k ∧ e.kind.marker = false ∧
      ∀ c ∈ C, said c.statements name = none ∧ c.kind.marker = false := by
  rcases lookup_some h with ⟨hq, hk⟩ | ⟨-, C, e, A, hq, h1, h2, h3⟩
  · exact .inl ⟨fun e he => hq e (mem_reverse.mpr he), hk.symm⟩
  · refine .inr ⟨A.reverse, e, C.reverse, ?_, h1, h2, fun c hc => h3 c (mem_reverse.mp hc)⟩
    rw [← reverse_reverse r.queue, hq, reverse_append, reverse_cons, append_assoc]
    rfl

/-- Where nothing is said about the unnamed statement, none has failed. -/
theorem ended_quiet {f : Option Nat} {stale : List (Reply R)}
    (h : ∀ e ∈ stale, said e.statements [] = none) : ended f stale = false := by
  rw [ended, List.any_eq_false]
  intro e he hc
  obtain ⟨-, -, hany⟩ := of_decide_eq_true hc
  obtain ⟨s, hs, hempty⟩ := List.any_eq_true.mp hany
  have hnone := h e he
  rw [said, map_eq_none_iff, List.find?_eq_none] at hnone
  exact hnone s (mem_reverse.mpr hs) (decide_eq_true (List.isEmpty_iff.mp hempty))

/-- What booking a reply does: it is counted, takes the head of the queue, or ends a cycle. -/
theorem Fits.cases {b : Back × Nat} (h : Fits r b) :
    ((settle r b.1).2.queue = r.queue ∧ (settle r b.1).2.statements = r.statements) ∨
    (∃ e q, r.queue = e :: q ∧ (settle r b.1).2.queue = q ∧
      ∀ name, (settle r b.1).2.statements name = (said e.statements name).getD
      (r.statements name)) ∨
    ∃ stale e q, r.queue = stale ++ e :: q ∧ e.kind.marker = true ∧ (settle r b.1).2.queue = q ∧
      ∀ name, (settle r b.1).2.statements name = (said e.statements name).getD
        (if name = [] ∧ ended r.failed stale = true then none else r.statements name) := by
  rcases h.shape with ⟨hc, -⟩ | ⟨e, q, hb, hq, he, -⟩ | ⟨hb, stale, e, q, hq, he, hs⟩
  · rw [settle_counted hc, count_frame]
    exact .inl ⟨rfl, rfl⟩
  · rw [settle_pop hb hq he, count_frame]
    exact .inr (.inl ⟨e, q, hq, apply_queue .., apply_statements _ _⟩)
  · obtain ⟨st, h1, hst⟩ := settle_ready hq hs he
    rw [hb, h1]
    exact .inr (.inr ⟨stale, e, q, hq, he, rfl, hst⟩)

/-- Replies that say nothing about a name. -/
theorem Settles.quiet (h : Settles r bs r') (hq : ∀ e ∈ r.queue, said e.statements name = none) :
    (∀ e ∈ r'.queue, e ∈ r.queue) ∧ r'.statements name = r.statements name := by
  induction h with
  | nil r => exact ⟨fun e he => he, rfl⟩
  | @cons r r' b bs hf _ ih =>
    have hstep : (∀ e ∈ (settle r b.1).2.queue, e ∈ r.queue) ∧
        (settle r b.1).2.statements name = r.statements name := by
      rcases hf.cases with ⟨h1, h2⟩ | ⟨e, q, h1, h2, h3⟩ | ⟨stale, e, q, h1, -, h2, h3⟩
      · rw [h1, h2]
        exact ⟨fun e he => he, rfl⟩
      · rw [h2, h3, hq e (h1 ▸ mem_cons_self)]
        exact ⟨fun x hx => h1 ▸ mem_cons_of_mem _ hx, rfl⟩
      · have hsub : ∀ x, x ∈ stale ∨ x = e ∨ x ∈ q → x ∈ r.queue := by
          intro x hx
          rw [h1, mem_append, mem_cons]
          exact hx
        rw [h2, h3, hq e (hsub e (.inr (.inl rfl)))]
        refine ⟨fun x hx => hsub x (.inr (.inr hx)), ?_⟩
        show (if _ then _ else _) = _
        refine if_neg fun hc => ?_
        obtain ⟨rfl, hend⟩ := hc
        rw [ended_quiet fun a ha => hq a (hsub a (.inl ha))] at hend
        cases hend
    obtain ⟨h1, h2⟩ := ih fun e he => hq e (hstep.1 e he)
    exact ⟨fun e he => hstep.1 e (h1 e he), h2.trans hstep.2⟩

/-- The last reply of the current cycle that says something about a name stays, or is booked. -/
theorem Settles.said (h : Settles r bs r') {e : Reply R}
    {A C : List (Reply R)} (hq : r.queue = A ++ e :: C) (he : said e.statements name = some k)
    (hm : e.kind.marker = false)
    (hC : ∀ c ∈ C, said c.statements name = none ∧ c.kind.marker = false) :
    (∃ A', r'.queue = A' ++ e :: C) ∨ (∀ c ∈ r'.queue, c ∈ C) ∧ r'.statements name = k := by
  induction h generalizing A with
  | nil r => exact .inl ⟨A, hq⟩
  | @cons r r' b bs hf hrest ih =>
    rcases hf.cases with ⟨h1, -⟩ | ⟨x, q, h1, h2, h3⟩ | ⟨stale, x, q, h1, hx, h2, -⟩
    · exact ih (h1.trans hq)
    · cases A with
      | nil =>
        -- the reply itself is booked
        rw [hq] at h1
        cases h1
        have hset : (settle r b.1).2.statements name = k := by
          rw [h3, he]
          rfl
        have hquiet : ∀ c ∈ (settle r b.1).2.queue, Proxy.said c.statements name = none :=
          fun c hc => (hC c (h2 ▸ hc)).1
        obtain ⟨h4, h5⟩ := hrest.quiet hquiet
        exact .inr ⟨fun c hc => h2 ▸ h4 c hc, h5.trans hset⟩
      | cons a A =>
        rw [hq] at h1
        cases h1
        exact ih h2
    · -- the end of the cycle is before it
      rw [hq] at h1
      rcases append_eq_append_iff.mp h1 with ⟨L, hL, hL'⟩ | ⟨L, hL, hL'⟩
      · cases L with
        | nil =>
          cases hL'
          rw [hx] at hm
          cases hm
        | cons l L =>
          cases hL'
          have := (hC x (mem_append_right _ mem_cons_self)).2
          rw [hx] at this
          cases this
      · cases L with
        | nil =>
          cases hL'
          rw [hx] at hm
          cases hm
        | cons l L =>
          cases hL'
          exact ih h2

end Lookup

/-! ## 2. What becomes of a statement -/

/-- What a message says about a name, if it succeeds. -/
def Message.tells (m : Message Text R) (name : Text) : Option (Option R) :=
  match m.request with
  | .parse n rewrite => if name = n then some rewrite else none
  | .close n => if name = n then some none else none
  | .query => if name = [] then some none else none
  | _ => none

/-- The server processes some messages, whatever comes of each. -/
inductive Serves (calls : R → Nat) : Server Text R → List (Message Text R) → Server Text R →
    Prop where
  | nil (b : Server Text R) : Serves calls b [] b
  | cons {b b₁ b' : Server Text R} {m : Message Text R} {ms : List (Message Text R)} {o : Outcome}
      {answers : List (Back × Nat)} (hn : b.next calls [] m.request o = some (b₁, answers))
      (h : Serves calls b₁ ms b') : Serves calls b (m :: ms) b'

/-- What the server will have under a name when it has processed these messages and skips no
    more. -/
def Will (calls : R → Nat) (b : Server Text R) (ms : List (Message Text R)) (name : Text)
    (k : Option R) :
    Prop :=
  ∀ b', Serves calls b ms b' → b'.skipping = false → b'.rewrite name = k

section Messages

variable {b b' : Server Text R} {m : Message Text R} {ms : List (Message Text R)} {name : Text}
  {k : Option R}
  {seq : Nat}

theorem entry_tells {e : Reply R} (h : e ∈ entry calls seq m) (name : Text) :
    said e.statements name = m.tells name ∧ e.kind.marker = m.request.ends := by
  obtain ⟨request, known⟩ := m
  cases request with
  | parse | close | query =>
    rw [mem_singleton.mp h]
    exact ⟨said_single .., rfl⟩
  | describe | closePortal | sync =>
    rw [mem_singleton.mp h]
    exact ⟨rfl, rfl⟩
  | bind | describePortal | execute | flush => cases h

/-- A message without a reply of its own says nothing. -/
theorem tells_of_entry (h : entry calls seq m = []) (name : Text) :
    m.tells name = none ∧ m.request.ends = false := by
  obtain ⟨request, known⟩ := m
  cases request with
  | bind | describePortal | execute | flush => exact ⟨rfl, rfl⟩
  | parse | close | query | describe | closePortal | sync => cases h

/-- What holds of the replies owed holds of the messages. -/
theorem entries_forall {P : Option (Option R) → Bool → Prop} (hP : P none false) :
    ∀ {seq : Nat} {ms : List (Message Text R)},
      (∀ e ∈ entries calls seq ms, P (said e.statements name) e.kind.marker) →
      ∀ m ∈ ms, P (m.tells name) m.request.ends
  | _, [], _, m, hm => by cases hm
  | seq, m :: ms, h, m', hm' => by
    rcases mem_cons.mp hm' with rfl | hm'
    · cases he : entry calls seq m' with
      | nil =>
        obtain ⟨h1, h2⟩ := tells_of_entry he name
        rw [h1, h2]
        exact hP
      | cons e es =>
        have hmem : e ∈ entry calls seq m' := he ▸ mem_cons_self
        obtain ⟨h1, h2⟩ := entry_tells hmem name
        rw [← h1, ← h2]
        exact h e (mem_append_left _ hmem)
    · exact entries_forall hP (fun e he => h e (mem_append_right _ he)) m' hm'

/-- The message a reply belongs to. -/
theorem entries_split : ∀ {seq : Nat} {ms : List (Message Text R)} {A C : List (Reply R)}
    {e : Reply R},
    entries calls seq ms = A ++ e :: C → ∃ ms₁ m ms₂ seq', ms = ms₁ ++ m :: ms₂ ∧
      e ∈ entry calls seq' m ∧ C = entries calls (seq' + m.width) ms₂
  | _, [], A, C, e, h => by
    cases A <;> cases h
  | seq, m :: ms, A, C, e, h => by
    have hlen : (entry calls seq m).length ≤ 1 := by
      obtain ⟨request, known⟩ := m
      cases request <;> simp [entry]
    have h : entry calls seq m ++ entries calls (seq + m.width) ms = A ++ e :: C := h
    rcases append_eq_append_iff.mp h with ⟨L, rfl, hL⟩ | ⟨L, hL, hL'⟩
    · obtain ⟨ms₁, m', ms₂, seq', rfl, hm, hC⟩ := entries_split hL
      exact ⟨m :: ms₁, m', ms₂, seq', rfl, hm, hC⟩
    · cases L with
      | nil =>
        obtain ⟨ms₁, m', ms₂, seq', rfl, hm, hC⟩ := entries_split (A := []) hL'.symm
        exact ⟨m :: ms₁, m', ms₂, seq', rfl, hm, hC⟩
      | cons l L =>
        cases hL'
        rw [hL, length_append, length_cons] at hlen
        obtain rfl := length_eq_zero_iff.mp (show L.length = 0 by omega)
        exact ⟨[], m, ms, seq, rfl, hL ▸ mem_append_right _ mem_cons_self, rfl⟩

/-! ### One message -/

variable {answers : List (Back × Nat)} {o : Outcome}

theorem next_skipping (hm : m.request.ends = false)
    (hb : b.skipping = true) (h : b.next calls [] m.request o = some (b', answers)) :
    b'.skipping = true := by
  have hne : m.request ≠ .sync := by
    intro e
    rw [e] at hm
    cases hm
  rw [next_of_ne_sync hne, if_pos hb] at h
  cases h
  exact hb

/-- After the end of a cycle the server skips nothing. -/
theorem next_ends (hm : m.request.ends = true) (hquery : m.request = .query → b.skipping = false)
    (h : b.next calls [] m.request o = some (b', answers)) : b'.skipping = false := by
  obtain ⟨request, known⟩ := m
  cases request with
  | sync =>
    cases o with
    | ok | fail =>
      cases h
      rfl
    | ran answers => cases h
  | query =>
    have hb := hquery rfl
    rw [next_of_ne_sync (m := ⟨.query, known⟩) (fun e => by cases e), hb] at h
    cases o with
    | ok | fail => cases h
    | ran answers =>
      simp only [Server.serve, Bool.false_eq_true, if_false] at h
      split at h
      · cases h
        exact hb
      · cases h
  | _ => cases hm

theorem serve_quiet (hm : m.tells name = none)
    (h : b.serve calls [] m.request o = some (b', answers)) : b'.rewrite name = b.rewrite name := by
  obtain ⟨request, known⟩ := m
  have hset : ∀ {n : Text} {s : Option (Option R)}, name ≠ n →
      (b.set n s).rewrite name = b.rewrite name := fun hne => by rw [rewrite_set, if_neg hne]
  cases request with
  | parse n rewrite =>
    have hne : name ≠ n := fun e => by simp [Message.tells, e] at hm
    cases o with
    | ok last =>
      simp only [Server.serve] at h
      split at h
      · cases h
      · cases h
        exact hset hne
    | fail half =>
      cases h
      rw [rewrite_stop]
      split
      · rename_i e
        exact hset (e ▸ hne)
      · rfl
    | ran answers => cases h
  | close n =>
    have hne : name ≠ n := fun e => by simp [Message.tells, e] at hm
    cases o with
    | ok last =>
      cases h
      exact hset hne
    | fail half =>
      cases h
      rfl
    | ran answers => cases h
  | query =>
    have hne : name ≠ [] := fun e => by simp [Message.tells, e] at hm
    cases o with
    | ok | fail => cases h
    | ran answers =>
      simp only [Server.serve] at h
      split at h
      · cases h
        exact hset hne
      · cases h
  | describe n =>
    cases o with
    | ok last =>
      simp only [Server.serve] at h
      split at h
      · cases h
        rfl
      · cases h
    | fail half =>
      simp only [Server.serve] at h
      split at h
      · cases h
        rfl
      · cases h
        rfl
    | ran answers => cases h
  | bind | describePortal | execute =>
    cases o with
    | ok last =>
      simp only [Server.serve] at h
      split at h
      · cases h
        rfl
      · cases h
    | fail half =>
      cases h
      rfl
    | ran answers => cases h
  | flush =>
    cases o with
    | ok last =>
      cases h
      rfl
    | fail | ran => cases h
  | closePortal | sync =>
    cases o with
    | ok | fail =>
      cases h
      rfl
    | ran answers => cases h

theorem next_quiet (hm : m.tells name = none)
    (h : b.next calls [] m.request o = some (b', answers)) : b'.rewrite name = b.rewrite name := by
  by_cases hsync : m.request = .sync
  · rw [hsync] at h
    refine serve_quiet hm (?_ : b.serve calls [] m.request o = some (b', answers))
    rw [hsync]
    exact h
  · rw [next_of_ne_sync hsync] at h
    split at h
    · cases h
      rfl
    · exact serve_quiet hm h

/-- A `Parse` or `Close` that is not followed by an error. -/
theorem next_said (hm : m.tells name = some k)
    (he : m.request.ends = false) (h : b.next calls [] m.request o = some (b', answers))
    (hb' : b'.skipping = false) : b'.rewrite name = k := by
  have hsync : m.request ≠ .sync := by
    intro e
    rw [e] at he
    cases he
  rw [next_of_ne_sync hsync] at h
  split at h
  · rename_i hb
    cases h
    rw [hb] at hb'
    cases hb'
  · obtain ⟨request, known⟩ := m
    cases request with
    | parse n rewrite =>
      obtain ⟨rfl, rfl⟩ : name = n ∧ rewrite = k := by simpa [Message.tells] using hm
      cases o with
      | ok last =>
        simp only [Server.serve] at h
        split at h
        · cases h
        · cases h
          rw [rewrite_set, if_pos rfl]
          rfl
      | fail half =>
        cases h
        cases hb'
      | ran answers => cases h
    | close n =>
      obtain ⟨rfl, rfl⟩ : name = n ∧ none = k := by simpa [Message.tells] using hm
      cases o with
      | ok last =>
        cases h
        rw [rewrite_set, if_pos rfl]
        rfl
      | fail half =>
        cases h
        cases hb'
      | ran answers => cases h
    | query => cases he
    | bind | describe | describePortal | execute | closePortal | flush | sync => cases hm

/-! ### Several messages -/

theorem Serves.quiet (h : Serves calls b ms b') (hm : ∀ m ∈ ms, m.tells name = none) :
    b'.rewrite name = b.rewrite name := by
  induction h with
  | nil b => rfl
  | cons hn _ ih =>
    rw [ih fun m hm' => hm m (mem_cons_of_mem _ hm')]
    exact next_quiet (hm _ mem_cons_self) hn

theorem Serves.skipping (h : Serves calls b ms b') (hm : ∀ m ∈ ms, m.request.ends = false)
    (hb : b.skipping = true) : b'.skipping = true := by
  induction h with
  | nil b => exact hb
  | cons hn _ ih =>
    exact ih (fun m hm' => hm m (mem_cons_of_mem _ hm'))
      (next_skipping (hm _ mem_cons_self) hb hn)

/-- The last message of a cycle that says something decides, if the cycle is not cut short. -/
theorem Serves.said {ms₁ ms₂ : List (Message Text R)} (h : Serves calls b (ms₁ ++ m :: ms₂) b')
    (hm : m.tells name = some k) (he : m.request.ends = false)
    (h₂ : ∀ m' ∈ ms₂, m'.tells name = none ∧ m'.request.ends = false) (hb' : b'.skipping = false) :
    b'.rewrite name = k := by
  induction ms₁ generalizing b with
  | nil =>
    cases h with
    | @cons _ b₁ _ _ _ _ _ hn hrest =>
      have hb₁ : b₁.skipping = false := by
        by_contra hb₁
        rw [hrest.skipping (fun m' hm' => (h₂ m' hm').2) (by simpa using hb₁)] at hb'
        cases hb'
      rw [hrest.quiet fun m' hm' => (h₂ m' hm').1]
      exact next_said hm he hn hb₁
  | cons m' ms₁ ih =>
    cases h with
    | cons _ hrest => exact ih hrest

end Messages

variable {r r' : Replies R} {bs : List (Back × Nat)} {b : Server Text R}
  {ms : List (Message Text R)}

/-- **What a lookup answers is what the server will have.** -/
theorem will_of_prepared {name : Text} {k : Option R} (hset : Settles r bs r')
    (hsync : Synced calls r' b ms) (hp : Shared.prepared r name = some k) :
    Will calls b ms name k := by
  intro b' hserves hb'
  -- without the end of a cycle among the messages the server goes on skipping
  have hskip : b.skipping = true → (∀ m ∈ ms, m.request.ends = false) → False := by
    intro hb hends
    rw [hserves.skipping hends hb] at hb'
    cases hb'
  rcases prepared_some hp with ⟨hq, rfl⟩ | ⟨A, e, C, hq, he, hm, hC⟩
  · -- nothing owed says anything
    obtain ⟨hsub, hst⟩ := hset.quiet hq
    cases hsync with
    | going _ hq' _ _ hs =>
      have hms : ∀ m ∈ ms, m.tells name = none :=
        entries_forall (P := fun o _ => o = none) rfl fun e he => hq e (hsub e (hq' ▸ he))
      rw [hserves.quiet hms, ← hs, hst]
    | skipping stale j _ _ hq' _ _ _ _ hs =>
      have hms : ∀ m ∈ ms, m.tells name = none :=
        entries_forall (P := fun o _ => o = none) rfl
          fun e he => hq e (hsub e (hq' ▸ mem_append_right _ he))
      rw [hserves.quiet hms, hs, if_neg, hst]
      intro hc
      obtain ⟨rfl, hend⟩ := hc
      rw [ended_quiet fun a ha => hq a (hsub a (hq' ▸ mem_append_left _ ha))] at hend
      cases hend
  · have hquiet : ∀ {L : List (Message Text R)} {seq : Nat}, (∀ c ∈ entries calls seq L, c ∈ C) →
        ∀ m ∈ L, m.tells name = none ∧ m.request.ends = false := by
      intro L seq hL
      exact entries_forall (P := fun o x => o = none ∧ x = false) ⟨rfl, rfl⟩ fun c hc =>
        hC c (hL c hc)
    have hsaid : ∀ {seq : Nat} {A' : List (Reply R)}, entries calls seq ms = A' ++ e :: C →
        b'.rewrite name = k := by
      intro seq A' h
      obtain ⟨ms₁, m, ms₂, seq', rfl, hmem, rfl⟩ := entries_split h
      obtain ⟨h1, h2⟩ := entry_tells hmem name
      exact hserves.said (h1.symm.trans he) (h2.symm.trans hm) (hquiet fun c hc => hc) hb'
    rcases hset.said hq he hm hC with ⟨A', hq₁⟩ | ⟨hsub, hst⟩
    · -- it is still owed
      cases hsync with
      | going _ hq' => exact hsaid (hq'.symm.trans hq₁)
      | skipping stale j _ hb hq' =>
        rw [hq'] at hq₁
        rcases append_eq_append_iff.mp hq₁ with ⟨L, rfl, hL⟩ | ⟨L, hL, hL'⟩
        · exact hsaid hL
        · cases L with
          | nil => exact @hsaid _ [] hL'.symm
          | cons l L =>
            cases hL'
            exact (hskip hb fun m hm => (hquiet (fun c hc => mem_append_right _ hc) m hm).2).elim
    · -- it has been booked
      cases hsync with
      | going _ hq' _ _ hs =>
        rw [hserves.quiet fun m hm => (hquiet (fun c hc => hsub c (hq' ▸ hc)) m hm).1, ← hs, hst]
      | skipping stale j _ hb hq' =>
        have hin : ∀ c ∈ entries calls j ms, c ∈ C :=
          fun c hc => hsub c (hq' ▸ mem_append_right _ hc)
        exact (hskip hb fun m hm => (hquiet hin m hm).2).elim

/-! ## 3. Runs -/

/-- A `Query` comes only after a `Sync` or a `Query`; `ready` says whether one came before. -/
def follows : Bool → List (Message Text R) → Prop
  | _, [] => True
  | ready, m :: ms => (m.request = .query → ready = true) ∧ follows m.request.ends ms

/-- The last message, or the one before all of them, was a `Sync` or a `Query`. -/
def ready : Bool → List (Message Text R) → Bool
  | p, [] => p
  | _, m :: ms => ready m.request.ends ms

theorem ready_snoc (p : Bool) (ms : List (Message Text R)) (m : Message Text R) :
    ready p (ms ++ [m]) = m.request.ends := by
  induction ms generalizing p with
  | nil => rfl
  | cons m' ms ih => exact ih _

variable {m : Message Text R}

theorem follows_snoc {p : Bool} (h : follows p ms)
    (hm : m.request = .query → ready p ms = true) : follows p (ms ++ [m]) := by
  induction ms generalizing p with
  | nil => exact ⟨hm, trivial⟩
  | cons m' ms ih => exact ⟨h.1, ih h.2 hm⟩

structure Inv (calls : R → Nat) (s : Conn Text R) : Prop where
  copyIn : s.replies.copyIn = false
  synced : ∃ r', Settles s.replies s.outbox r' ∧ Synced calls r' s.server s.inbox
  ordered : ∃ p, follows p s.inbox ∧ ready p s.inbox = s.fresh ∧
    (p = true → s.server.skipping = false)
  query : ∀ k, s.held = some (.query, k) → s.fresh = true
  known : ∀ ms₁ m ms₂, s.inbox = ms₁ ++ m :: ms₂ → ∀ name, m.request.asks = some name →
    Will calls s.server ms₁ name m.known
  held : ∀ request k, s.held = some (request, some k) → ∀ name, request.asks = some name →
    Will calls s.server s.inbox name k

/-- What booking a reply leaves alone. -/
theorem settle_frame {b : Back × Nat} (hf : Fits r b) (h : r.copyIn = false) :
    (settle r b.1).2.copyIn = false ∧ (settle r b.1).2.sent = r.sent := by
  rcases hf.shape with ⟨hc, -⟩ | ⟨e, q, hb, hq, he, -⟩ | ⟨hb, stale, e, q, hq, he, hs⟩
  · rw [settle_counted hc, count_frame]
    exact ⟨h, rfl⟩
  · rw [settle_pop hb hq he, apply_copyIn, apply_sent, count_frame]
    exact ⟨h, rfl⟩
  · obtain ⟨st, h1, -⟩ := settle_ready hq hs he
    rw [hb, h1]
    exact ⟨rfl, rfl⟩

theorem Settles.sent_eq (h : Settles r bs r') (hc : r.copyIn = false) : r'.sent = r.sent := by
  induction h with
  | nil r => rfl
  | cons hf _ ih =>
    obtain ⟨h1, h2⟩ := settle_frame hf hc
    exact (ih h1).trans h2

/-- The next message of the server is what it was looked up to be. -/
theorem Inv.head {s : Conn Text R} (hI : Inv calls s)
    (hin : s.inbox = m :: ms) (hb : s.server.skipping = false) (name : Text)
    (hm : m.request.asks = some name) : m.known = s.server.rewrite name :=
  (hI.known [] m ms hin name hm _ (.nil _) hb).symm

/-- A message goes to the end of the queue. -/
theorem Synced.sent (h : Synced calls r b ms) (m : Message Text R) :
    Synced calls (r.extend (entry calls r.sent m) (r.sent + m.width)) b (ms ++ [m]) := by
  have hlast : ∀ k, entries calls k (ms ++ [m]) = entries calls k ms ++
      entry calls (k + widths ms) m := by
    intro k
    rw [entries_append]
    show _ ++ (_ ++ []) = _
    rw [append_nil]
  cases h with
  | going hb hq hn hf hs =>
    refine .going hb ?_ ?_ hf hs
    · show r.queue ++ entry calls r.sent m = entries calls r.done (ms ++ [m])
      rw [hlast, hq, hn]
    · show r.sent + m.width = r.done + widths (ms ++ [m])
      rw [widths_snoc, hn, Nat.add_assoc]
  | skipping stale k j hb hq hn hm hf hj hs =>
    refine .skipping stale k j hb ?_ ?_ hm hf hj hs
    · show r.queue ++ entry calls r.sent m = stale ++ entries calls k (ms ++ [m])
      rw [hlast, hq, hn, append_assoc]
    · show r.sent + m.width = k + widths (ms ++ [m])
      rw [widths_snoc, hn, Nat.add_assoc]

/-- A name in UTF-8 is read and sent on as it is. -/
theorem map_utf8 (m : Message Text R) : m.map Names.utf8.text = m := by
  obtain ⟨request, known⟩ := m
  cases request <;> rfl

theorem sent_utf8 (m : Message Text R) (rebound : Bool) : m.sent .utf8 rebound = m := by
  obtain ⟨request, known⟩ := m
  cases request with
  | parse name rewrite => cases rewrite <;> rfl
  | bind name => exact ite_self _
  | _ => rfl

section Steps

variable {s s' : Conn Text R}

theorem Inv.read (hI : Inv calls s) {request : Request Text R}
    (h : s.step calls .utf8 (.read request) = some s') : Inv calls s' := by
  have hheld : ∀ request, (request = .query → s.fresh = true) →
      Inv calls { s with held := some (request, none) } := fun request hq =>
    ⟨hI.copyIn, hI.synced, hI.ordered, fun k e => by cases e; exact hq rfl, hI.known,
      fun request' k e => by cases e⟩
  unfold Conn.step at h
  dsimp only at h
  split at h
  · split at h
    · rename_i hf
      cases h
      exact hheld _ fun _ => hf
    · cases h
  · rename_i hne
    cases h
    exact hheld _ fun e => absurd e hne
  · cases h

theorem Inv.look (hI : Inv calls s) (h : s.step calls .utf8 .look = some s') : Inv calls s' := by
  unfold Conn.step at h
  dsimp only at h
  split at h
  · rename_i request hh
    obtain ⟨name, hname, h⟩ := bind_eq_some_iff.mp h
    obtain ⟨k, hk, rfl⟩ := map_eq_some_iff.mp h
    refine ⟨hI.copyIn, hI.synced, hI.ordered, fun k' e => ?_, hI.known,
      fun request' k' e name' hn => ?_⟩
    · cases e
      exact hI.query _ hh
    · cases e
      rw [hname] at hn
      cases hn
      obtain ⟨r', hset, hsync⟩ := hI.synced
      exact will_of_prepared hset hsync hk
  · cases h

theorem Inv.forward (hI : Inv calls s) {rebound : Bool}
    (h : s.step calls .utf8 (.forward rebound) = some s') : Inv calls s' := by
  unfold Conn.step at h
  dsimp only at h
  split at h
  · rename_i request known hh
    split at h
    · cases h
    · rename_i hknown
      rw [sent_utf8, map_utf8] at h
      cases h
      obtain ⟨r', hset, hsync⟩ := hI.synced
      obtain ⟨p, hfol, hready, hp⟩ := hI.ordered
      have hsent := hset.sent_eq hI.copyIn
      refine ⟨?_, ?_, ⟨p, follows_snoc hfol ?_, ready_snoc .., hp⟩, fun k e => (by cases e), ?_,
        fun request' k e => (by cases e)⟩
      · show (s.replies.forward calls _).copyIn = false
        rw [forward_eq hI.copyIn]
        exact hI.copyIn
      · refine ⟨_, ?_, hsync.sent ⟨request, known.getD none⟩⟩
        rw [hsent]
        show Settles (s.replies.forward calls _) s.outbox _
        rw [forward_eq hI.copyIn]
        exact hset.push _ _
      · intro e
        rw [hready]
        cases e
        exact hI.query _ hh
      · -- the new message is the last one, and its lookup was good
        have hnew : ∀ name, request.asks = some name →
            Will calls s.server s.inbox name (known.getD none) := by
          intro name hname
          cases hk : known with
          | none =>
            rw [hk] at hknown
            exact absurd ⟨isSome_iff_exists.mpr ⟨name, hname⟩, rfl⟩ hknown
          | some k =>
            rw [hk] at hh
            exact hI.held request k hh name hname
        intro ms₁ m ms₂ e name hname
        rcases eq_nil_or_concat ms₂ with rfl | ⟨ms₂, m', rfl⟩
        · obtain ⟨rfl, hm⟩ := append_inj' e rfl
          cases hm
          exact hnew name hname
        · have e' : s.inbox ++ [_] = (ms₁ ++ m :: ms₂) ++ [m'] := e.trans (by simp)
          exact hI.known ms₁ m ms₂ (append_inj' e' rfl).1 name hname
  · cases h

theorem Inv.serve (hI : Inv calls s) {o : Outcome} (h : s.step calls .utf8 (.serve o) = some s') :
    Inv calls s' := by
  unfold Conn.step at h
  dsimp only at h
  split at h
  · rename_i m inbox hin
    obtain ⟨⟨server, answers⟩, hnext, rfl⟩ := map_eq_some_iff.mp h
    obtain ⟨r', hset, hsync⟩ := hI.synced
    obtain ⟨p, hfol, hready, hp⟩ := hI.ordered
    rw [hin] at hsync hfol hready
    obtain ⟨r'', hset', hsync'⟩ := hsync.next (fun hb => hI.head hin hb)
      (fun e => hp (hfol.1 e)) hnext
    -- what was to come is one message nearer
    have hwill : ∀ {ms : List (Message Text R)} {name : Text} {k : Option R},
        Will calls s.server (m :: ms) name k → Will calls server ms name k :=
      fun hw b' hserves hb' => hw b' (.cons hnext hserves) hb'
    refine ⟨hI.copyIn, ⟨r'', hset.append hset', hsync'⟩,
      ⟨m.request.ends, hfol.2, hready, fun he => ?_⟩,
      hI.query, fun ms₁ m' ms₂ e name hname => ?_, fun request k hh name hname => ?_⟩
    · exact next_ends he (fun e => hp (hfol.1 e)) hnext
    · exact hwill (hI.known (m :: ms₁) m' ms₂ (by rw [hin, show inbox = _ from e]; rfl) name hname)
    · have hw := hI.held request k hh name hname
      rw [hin] at hw
      exact hwill hw
  · cases h

theorem Inv.settle (hI : Inv calls s) (h : s.step calls .utf8 .settle = some s') :
    Inv calls s' := by
  unfold Conn.step at h
  dsimp only at h
  split at h
  · rename_i kind n outbox hout
    cases h
    obtain ⟨r', hset, hsync⟩ := hI.synced
    rw [hout] at hset
    cases hset with
    | cons hf hrest =>
      exact ⟨(settle_frame hf hI.copyIn).1, ⟨r', hrest, hsync⟩, hI.ordered, hI.query,
        hI.known, hI.held⟩
  · cases h

theorem Inv.step (hI : Inv calls s) {a : Act Text R} (h : s.step calls .utf8 a = some s') :
    Inv calls s' := by
  cases a with
  | read request => exact hI.read h
  | look => exact hI.look h
  | forward rebound => exact hI.forward h
  | serve o => exact hI.serve h
  | settle => exact hI.settle h

end Steps

theorem inv_start : Inv calls (Conn.start : Conn Text R) where
  copyIn := rfl
  synced := ⟨_, .nil _, .going rfl rfl rfl rfl fun _ => rfl⟩
  ordered := ⟨true, trivial, rfl, fun _ => rfl⟩
  query := fun _ h => by cases h
  known := fun ms₁ _ _ h => by cases ms₁ <;> cases h
  held := fun _ _ h => by cases h

/-! ## 4. The markers -/

/-- A `ReadyForQuery` takes one marker, and no other reply does. -/
theorem Settles.markers {r r' : Replies R} {bs : List (Back × Nat)} (h : Settles r bs r') :
    r.queue.countP (·.kind.marker) = bs.countP (·.1 = .ready) + r'.queue.countP
    (·.kind.marker) := by
  induction h with
  | nil r => simp
  | @cons r r' b bs hf _ ih =>
    rw [countP_cons, Nat.add_right_comm, ← ih]
    obtain ⟨b, n⟩ := b
    cases b with
    | parseComplete | closeComplete =>
      obtain ⟨e, q, hq, he, hm⟩ := hf
      rw [settle_pop rfl hq he, hq]
      simp [hm]
    | parameterDescription =>
      obtain ⟨e, q, hq, ⟨he, hm⟩, -⟩ := hf
      rw [settle_pop rfl hq he, hq]
      simp [hm]
    | ready =>
      obtain ⟨stale, e, q, hq, he, hs⟩ := hf
      obtain ⟨st, h1, -⟩ := settle_ready hq hs he
      have hstale : stale.countP (·.kind.marker) = 0 := by simpa using hs
      simp [h1, hq, he, hstale]
    | copyIn => cases hf
    | bindComplete | commandComplete | emptyQuery | portalSuspended | noData | rowDescription
    | functionResponse | error | other =>
      rw [settle_counted rfl, count_frame]
      rfl

theorem countP_entries : ∀ (k : Nat) (ms : List (Message Text R)),
    (entries calls k ms).countP (·.kind.marker) = ms.countP (·.request.ends)
  | _, [] => rfl
  | k, ⟨request, known⟩ :: ms => by
    rw [entries, countP_append, countP_entries, countP_cons, Nat.add_comm]
    cases request <;> rfl

end Postvec.Proxy
