import Mathlib.Algebra.GroupWithZero.Nat
import Postvec.Lib.Halving
import Postvec.Managed.Inference

/-!
# Embedding a batch: sub-batches and bisection

`request_chunks` cuts the texts of a group into sub-batches that fit one message, `bisect_embed`
sends a sub-batch and halves it while the node says that a row is at fault, and
`embed_with_bisection` turns what comes back into one outcome for each row.

A client is what it answers to its `n`-th request, of whatever texts; an error comes with the text
it is printed as. The functions also return the requests they make. Sizes are natural numbers: the
source saturates, which only happens beyond every budget.

* `requestChunks_spec`: the sub-batches are the texts in order, none empty, none beyond a budget
  except a text alone;
* **`poison_isolated`**: which row has which outcome if the client fails exactly on poison rows.
-/

namespace Postvec.Bisection

open Machine.Halving List
open Inference (PvError ErrorClass)

/-! ## 1. Errors and outcomes -/

/-- An error of the client, with the text it prints. -/
structure ClientError where
  error : PvError
  text : Text
deriving DecidableEq

/-- The answer does not have one vector for each input. -/
def countMismatch (what : String) (got want : Nat) : ClientError :=
  ⟨.decode, ("bad response from the inference host: " ++ what ++ " count mismatch: got " ++
    toString got ++
    ", want " ++ toString want).toList⟩

inductive ItemOutcome (V : Type*) where
  | ok (v : V)
  | dead (reason : Text)
  | retry (reason : Text)
deriving DecidableEq

variable {F : Type*}

/-! ## 2. Sub-batches -/

def responseWireBudgetBytes : Nat := 48 * 1024 * 1024
def wireBytesPerFloat : Nat := 12
def responseTreeBudgetBytes : Nat := 96 * 1024 * 1024
def transientTreeBytesPerFloat : Nat := 96
def transientTreeBytesPerItem : Nat := 256
def maxRequestItems : Nat := 4096
def requestWireBudgetBytes : Nat := 48 * 1024 * 1024

def maxItemsForDim (dim : Int) : Nat :=
  let dim := (max dim 1).toNat
  let wire := responseWireBudgetBytes / (dim * wireBytesPerFloat)
  let trees := responseTreeBudgetBytes / (dim * transientTreeBytesPerFloat +
    transientTreeBytesPerItem)
  min (max (min wire trees) 1) maxRequestItems

/-- The inner loop: how far the sub-batch reaches, and what is left. -/
def fill (maxItems count bytes : Nat) : List Text → List Text × List Text
  | [] => ([], [])
  | t :: ts =>
    if count < maxItems ∧ bytes + byteLen t ≤ requestWireBudgetBytes then
      let r := fill maxItems (count + 1) (bytes + byteLen t) ts
      (t :: r.1, r.2)
    else ([], t :: ts)

theorem fill_append (maxItems : Nat) : ∀ (count bytes : Nat) (ts : List Text),
    (fill maxItems count bytes ts).1 ++ (fill maxItems count bytes ts).2 = ts
  | _, _, [] => rfl
  | count, bytes, t :: ts => by
    unfold fill
    split
    · exact congrArg (t :: ·) (fill_append maxItems (count + 1) (bytes + byteLen t) ts)
    · rfl

def requestChunks (texts : List Text) (dim : Int) : List (List Text) :=
  match texts with
  | [] => []
  | t :: ts =>
    let r := fill (maxItemsForDim dim) 1 (byteLen t) ts
    (t :: r.1) :: requestChunks r.2 dim
termination_by texts.length
decreasing_by
  have := congrArg List.length (fill_append (maxItemsForDim dim) 1 (byteLen t) ts)
  rw [length_append] at this
  rw [length_cons]
  omega

/-- The bytes of the texts of a request. -/
def requestBytes (texts : List Text) : Nat := (texts.map byteLen).sum

/-- A request fits: its items, and its bytes unless it is one text. -/
def Fits (dim : Int) (texts : List Text) : Prop :=
  texts.length ≤ maxItemsForDim dim ∧
    (requestBytes texts ≤ requestWireBudgetBytes ∨ texts.length = 1)

theorem one_le_maxItemsForDim (dim : Int) : 1 ≤ maxItemsForDim dim := by
  unfold maxItemsForDim
  exact le_min (le_max_right _ _) (by decide)

theorem fill_fits (maxItems : Nat) : ∀ (count bytes : Nat) (ts : List Text), count ≤ maxItems →
    count + (fill maxItems count bytes ts).1.length ≤ maxItems ∧
      ((fill maxItems count bytes ts).1 = [] ∨
        bytes + requestBytes (fill maxItems count bytes ts).1 ≤ requestWireBudgetBytes)
  | count, bytes, [], hc => ⟨hc, .inl rfl⟩
  | count, bytes, t :: ts, hc => by
    unfold fill
    by_cases h : count < maxItems ∧ bytes + byteLen t ≤ requestWireBudgetBytes
    · rw [if_pos h]
      obtain ⟨hlen, hbytes⟩ := fill_fits maxItems (count + 1) (bytes + byteLen t) ts h.1
      refine ⟨by rw [length_cons]; omega, .inr ?_⟩
      dsimp only
      rcases hbytes with he | hb
      · rw [he]
        simpa [requestBytes] using h.2
      · rw [requestBytes, map_cons, sum_cons, ← Nat.add_assoc]
        exact hb
    · rw [if_neg h]
      exact ⟨hc, .inl rfl⟩

/-- The sub-batches are the texts in order; none is empty, and each fits one message. -/
theorem requestChunks_spec (texts : List Text) (dim : Int) :
    (requestChunks texts dim).flatten = texts ∧
      ∀ chunk ∈ requestChunks texts dim, chunk ≠ [] ∧ Fits dim chunk := by
  fun_induction requestChunks texts dim with
  | case1 => exact ⟨rfl, fun _ h => absurd h not_mem_nil⟩
  | case2 t ts r ih =>
    subst r
    refine ⟨?_, fun chunk h => ?_⟩
    · rw [flatten_cons, ih.1, cons_append, fill_append]
    · rcases mem_cons.mp h with h | h
      · rw [h]
        obtain ⟨hlen, hbytes⟩ :=
          fill_fits (maxItemsForDim dim) 1 (byteLen t) ts (one_le_maxItemsForDim dim)
        refine ⟨cons_ne_nil _ _, by rw [length_cons]; omega, ?_⟩
        rcases hbytes with he | hb
        · exact .inr (by rw [he, length_singleton])
        · exact .inl hb
      · exact ih.2 chunk h

/-- A part of what fits fits. -/
theorem Fits.of_infix {dim : Int} {part texts : List Text} (h : Fits dim texts)
    (hin : part <:+: texts) : Fits dim part := by
  refine ⟨hin.length_le.trans h.1, ?_⟩
  by_cases hne : part = []
  · exact .inl (by rw [hne]; exact Nat.zero_le _)
  rcases h.2 with hb | hl
  · obtain ⟨before, after, rfl⟩ := hin
    rw [requestBytes, map_append, map_append, sum_append, sum_append] at hb
    exact .inl (by unfold requestBytes; omega)
  · have := hin.length_le
    have := length_pos_iff.mpr hne
    exact .inr (by omega)

/-! ## 3. Bisection -/

section embedding

variable (finite : F → Bool) (embed : Nat → List Text → Except ClientError (List (List F)))

/-- What `bisect_embed` makes of an answer. -/
def embedReply (calls _depth : Nat) (texts : List Text) :
    Reply (Except Text (List F)) ClientError :=
  match embed calls texts with
  | .ok vecs =>
    if vecs.length = texts.length then .done (vecs.map .ok)
    else .fail (countMismatch "embedding" vecs.length texts.length)
  | .error e =>
    if e.error.class = .poisonRow then
      if texts.length = 1 then .done [.error e.text] else .split e
    else .fail e

def bisectEmbed (calls : Nat) (texts : List Text) :
    List (List Text) × Except ClientError (List (Except Text (List F))) :=
  if texts.isEmpty then ([], .ok []) else halve (embedReply embed) calls 0 texts

/-- The outcome of a row that came back. -/
def rowOutcome : Except Text (List F) → ItemOutcome (List F)
  | .ok v =>
    if v.all finite then .ok v else .dead "model returned a non-finite embedding (NaN/Inf)".toList
  | .error poison => .dead poison

def embedWithBisection (calls : Nat) (texts : List Text) :
    List (List Text) × List (ItemOutcome (List F)) :=
  let r := bisectEmbed embed calls texts
  match r.2 with
  | .ok rows => (r.1, rows.map (rowOutcome finite))
  | .error e =>
    let outcome := match e.error.class with
      | .permanent => .dead e.text
      | _ => .retry e.text
    (r.1, texts.map fun _ => outcome)

/-- The loop over the sub-batches, with the requests of each. -/
def embedChunks : Nat → List (List Text) → List (List (List Text)) × List (ItemOutcome (List F))
  | _, [] => ([], [])
  | calls, chunk :: chunks =>
    let r := embedWithBisection finite embed calls chunk
    let rest := embedChunks (calls + r.1.length) chunks
    (r.1 :: rest.1, r.2 ++ rest.2)

def embedWithBisectionBounded (texts : List Text) (dim : Int) :
    List (List (List Text)) × List (ItemOutcome (List F)) :=
  embedChunks finite embed 0 (requestChunks texts dim)

end embedding

/-! ## 4. Poison rows -/

section poison

variable {finite : F → Bool} {embed : Nat → List Text → Except ClientError (List (List F))}
  {poison : Text → Bool} {f : Text → List F}

/-- The client fails exactly the requests with a poison text, and says that a row is at fault. -/
structure Isolating (embed : Nat → List Text → Except ClientError (List (List F)))
    (poison : Text → Bool) (f : Text → List F) : Prop where
  fails : ∀ n texts, (∃ t ∈ texts, poison t = true) →
    ∃ e, embed n texts = .error e ∧ e.error.class = .poisonRow
  gives : ∀ n texts, (∀ t ∈ texts, poison t = false) → embed n texts = .ok (texts.map f)

/-- A reply has one result for each text. -/
theorem embedReply_length {n d : Nat} {texts : List Text} {ys : List (Except Text (List F))}
    (h : embedReply embed n d texts = .done ys) : ys.length = texts.length := by
  unfold embedReply at h
  split at h
  · split at h
    · cases h
      rwa [length_map]
    · cases h
  · split at h
    · split at h
      · cases h
        rename_i hl
        exact hl.symm
      · cases h
    · cases h

/-- The result of a row. -/
def RowOf (poison : Text → Bool) (f : Text → List F) (t : Text) (y : Except Text (List F)) : Prop :=
  if poison t then ∃ reason, y = .error reason else y = .ok (f t)

/-- A reply of such a client: it never ends the batch, halves only what has two texts, and gives
    each text its own result. -/
theorem Isolating.reply (h : Isolating embed poison f) (n d : Nat) (texts : List Text) :
    (∃ ys, embedReply embed n d texts = .done ys ∧ List.Forall₂ (RowOf poison f) texts ys) ∨
      ∃ e, embedReply embed n d texts = .split e ∧ 1 < texts.length := by
  by_cases hp : ∃ t ∈ texts, poison t = true
  · obtain ⟨e, he, hc⟩ := h.fails n texts hp
    by_cases hl : texts.length = 1
    · refine .inl ⟨[.error e.text], ?_, ?_⟩
      · rw [embedReply, he]
        dsimp only
        rw [if_pos hc, if_pos hl]
      · obtain ⟨t, rfl⟩ := length_eq_one_iff.mp hl
        obtain ⟨s, hs, hps⟩ := hp
        cases mem_singleton.mp hs
        refine .cons ?_ .nil
        rw [RowOf, if_pos hps]
        exact ⟨_, rfl⟩
    · obtain ⟨t, ht, _⟩ := hp
      have := length_pos_of_mem ht
      refine .inr ⟨e, ?_, by omega⟩
      rw [embedReply, he]
      dsimp only
      rw [if_pos hc, if_neg hl]
  · have hno : ∀ t ∈ texts, poison t = false := fun t ht =>
      Bool.eq_false_iff.mpr fun hpt => hp ⟨t, ht, hpt⟩
    refine .inl ⟨(texts.map f).map .ok, ?_, ?_⟩
    · rw [embedReply, h.gives n texts hno]
      dsimp only
      rw [if_pos (by rw [length_map])]
    · rw [map_map, forall₂_map_right_iff, forall₂_same]
      intro t ht
      rw [RowOf, hno t ht, if_neg Bool.false_ne_true]
      rfl

/-- The results of a sub-batch. -/
theorem Isolating.bisect (h : Isolating embed poison f) (calls : Nat) (texts : List Text) :
    ∃ ys, (bisectEmbed embed calls texts).2 = .ok ys ∧ List.Forall₂ (RowOf poison f) texts ys := by
  unfold bisectEmbed
  by_cases he : texts.isEmpty = true
  · rw [if_pos he, List.isEmpty_iff.mp he]
    exact ⟨[], rfl, .nil⟩
  rw [if_neg he]
  have hfail : ∀ n d part e, part <:+: texts → embedReply embed n d part ≠ .fail e := by
    intro n d part e _ hf
    rcases h.reply n d part with ⟨ys, hd, _⟩ | ⟨e', hs, _⟩
    · rw [hd] at hf
      cases hf
    · rw [hs] at hf
      cases hf
  have hsplit : ∀ n d part e, part <:+: texts → embedReply embed n d part = .split e →
      1 < part.length := by
    intro n d part e _ hs
    rcases h.reply n d part with ⟨ys, hd, _⟩ | ⟨e', _, hl⟩
    · rw [hd] at hs
      cases hs
    · exact hl
  obtain ⟨ys, hy⟩ := halve_total calls 0 texts hfail hsplit
  refine ⟨ys, hy, halve_forall₂ (fun n d part zs hz => ?_) calls 0 hy⟩
  rcases h.reply n d part with ⟨ws, hd, hw⟩ | ⟨e', hs, _⟩
  · rw [hd] at hz
    cases hz
    exact hw
  · rw [hs] at hz
    cases hz

/-- What becomes of a row: its own vector, if it is not poison and the vector is finite. -/
def Isolated (finite : F → Bool) (poison : Text → Bool) (f : Text → List F) (t : Text)
    (o : ItemOutcome (List F)) : Prop :=
  if poison t = false ∧ (f t).all finite = true then o = .ok (f t) else ∃ reason, o = .dead reason

theorem isolated_of_rowOf {t : Text} {y : Except Text (List F)} (h : RowOf poison f t y) :
    Isolated finite poison f t (rowOutcome finite y) := by
  unfold RowOf at h
  unfold Isolated
  cases hp : poison t with
  | true =>
    rw [hp, if_pos rfl] at h
    obtain ⟨reason, rfl⟩ := h
    rw [if_neg (fun hc => Bool.noConfusion hc.1)]
    exact ⟨reason, rfl⟩
  | false =>
    rw [hp, if_neg Bool.false_ne_true] at h
    subst h
    rw [rowOutcome]
    by_cases hf : (f t).all finite = true
    · rw [if_pos ⟨rfl, hf⟩, if_pos hf]
    · rw [if_neg (fun hc => hf hc.2), if_neg hf]
      exact ⟨_, rfl⟩

/-- The outcomes of a sub-batch, and what was asked for them. -/
theorem Isolating.outcomes (h : Isolating embed poison f) (calls : Nat) (texts : List Text) :
    List.Forall₂ (Isolated finite poison f) texts
    (embedWithBisection finite embed calls texts).2 := by
  obtain ⟨ys, hy, hrows⟩ := h.bisect calls texts
  unfold embedWithBisection
  dsimp only
  rw [hy]
  exact forall₂_map_right_iff.mpr (hrows.imp fun _ _ => isolated_of_rowOf)

/-- The requests of a sub-batch are parts of it, whatever the client does. -/
theorem embedWithBisection_asked (finite : F → Bool)
    (embed : Nat → List Text → Except ClientError (List (List F))) (calls : Nat) {texts : List Text}
    (hne : texts ≠ []) :
    (∀ req ∈ (embedWithBisection finite embed calls texts).1, req <:+: texts) ∧
      (embedWithBisection finite embed calls texts).1.length ≤ 2 * texts.length - 1 := by
  have hasked : (embedWithBisection finite embed calls texts).1 =
      (halve (embedReply embed) calls 0 texts).1 := by
    have hb : bisectEmbed embed calls texts = halve (embedReply embed) calls 0 texts :=
      if_neg (by rwa [List.isEmpty_iff])
    unfold embedWithBisection
    rw [hb]
    dsimp only
    split <;> rfl
  rw [hasked]
  obtain ⟨hin, hlen⟩ := halve_asked (embedReply embed) calls 0 texts
  have := hlen hne
  exact ⟨hin, by omega⟩

/-- The loop: what holds of each sub-batch holds of all. -/
theorem embedChunks_outcomes {R : Text → ItemOutcome (List F) → Prop} (finite : F → Bool)
    (embed : Nat → List Text → Except ClientError (List (List F)))
    (hR : ∀ calls chunk, List.Forall₂ R chunk (embedWithBisection finite embed calls chunk).2) :
    ∀ (calls : Nat) (chunks : List (List Text)),
      List.Forall₂ R chunks.flatten (embedChunks finite embed calls chunks).2
  | _, [] => .nil
  | calls, chunk :: chunks =>
    rel_append (hR calls chunk) (embedChunks_outcomes finite embed hR _ chunks)

/-- The loop: the requests of each sub-batch. -/
theorem embedChunks_asked {Q : List Text → List (List Text) → Prop} (finite : F → Bool)
    (embed : Nat → List Text → Except ClientError (List (List F))) : ∀ (calls : Nat)
    (chunks : List (List Text)),
    (∀ calls, ∀ chunk ∈ chunks, Q chunk (embedWithBisection finite embed calls chunk).1) →
      List.Forall₂ Q chunks (embedChunks finite embed calls chunks).1
  | _, [], _ => .nil
  | calls, chunk :: chunks, hQ =>
    .cons (hQ calls chunk mem_cons_self)
      (embedChunks_asked finite embed _ chunks fun calls c hc => hQ calls c (mem_cons_of_mem _ hc))

/-- Poison rows are isolated exactly. With a client that fails exactly the requests with a poison
    text, row by row the outcome is the row's own vector, if it is not poison and its vector is
    finite, and `dead` otherwise. Every request fits one message, and a sub-batch of `n` texts is
    asked for at most `2 n - 1` times. -/
theorem poison_isolated (finite : F → Bool)
    (embed : Nat → List Text → Except ClientError (List (List F))) (poison : Text → Bool)
    (f : Text → List F) (h : Isolating embed poison f) (texts : List Text) (dim : Int) :
    List.Forall₂ (Isolated finite poison f) texts
        (embedWithBisectionBounded finite embed texts dim).2 ∧
      (requestChunks texts dim).flatten = texts ∧
      List.Forall₂ (fun chunk asked =>
          (∀ req ∈ asked, Fits dim req) ∧ asked.length ≤ 2 * chunk.length - 1)
        (requestChunks texts dim) (embedWithBisectionBounded finite embed texts dim).1 := by
  obtain ⟨hflat, hchunk⟩ := requestChunks_spec texts dim
  refine ⟨?_, hflat, ?_⟩
  · have hrows := embedChunks_outcomes finite embed (fun calls chunk => h.outcomes calls chunk) 0
      (requestChunks texts dim)
    rwa [hflat] at hrows
  · refine embedChunks_asked finite embed 0 _ fun calls chunk hc => ?_
    obtain ⟨hne, hfits⟩ := hchunk chunk hc
    obtain ⟨hin, hlen⟩ := embedWithBisection_asked finite embed calls hne
    exact ⟨fun req hr => hfits.of_infix (hin req hr), hlen⟩

/-- A client for which texts with an exclamation mark are too long. -/
def sampleEmbed (_ : Nat) (texts : List Text) : Except ClientError (List (List Nat)) :=
  if texts.any fun t => t.contains '!' then .error ⟨.remote .contextLengthExceeded, ['!']⟩
  else .ok (texts.map fun t => [t.length])

/-- Four rows, of which the second is poison and the fourth has no finite vector. -/
theorem sampleEmbed_isolated :
    Isolating sampleEmbed (fun t => t.contains '!') (fun t => [t.length]) ∧
      (embedWithBisectionBounded (fun x => x < 3) sampleEmbed
        [['a'], ['!'], ['a', 'b'], ['a', 'b', 'c']] 8).2 = [.ok [1], .dead ['!'], .ok [2],
          .dead "model returned a non-finite embedding (NaN/Inf)".toList] ∧
      List.Forall₂ (Isolated (fun x => x < 3) (fun t => t.contains '!') (fun t => [t.length]))
        [['a'], ['!'], ['a', 'b'], ['a', 'b', 'c']]
        (embedWithBisectionBounded (fun x => x < 3) sampleEmbed
          [['a'], ['!'], ['a', 'b'], ['a', 'b', 'c']] 8).2 := by
  have h : Isolating sampleEmbed (fun t => t.contains '!') (fun t => [t.length]) := by
    constructor
    · intro n texts hp
      exact ⟨_, if_pos (any_eq_true.mpr hp), rfl⟩
    · intro n texts hno
      exact if_neg fun hp => by
        obtain ⟨t, ht, hpt⟩ := any_eq_true.mp hp
        rw [hno t ht] at hpt
        cases hpt
  exact ⟨h, by decide +kernel, (poison_isolated _ _ _ _ h _ 8).1⟩

end poison

end Postvec.Bisection
