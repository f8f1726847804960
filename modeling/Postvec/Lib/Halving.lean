import Mathlib.Data.List.Forall2
import Mathlib.Data.List.Infix

/-!
# Requests that are halved

A list is sent in one request. The reply is a list of results, an error that ends everything, or an
error on which the list is cut in half and each half sent in the same way. The `n`-th request may be
answered in any way that depends on `n`, on how often the list has been halved, and on the list.

`halve_asked` bounds the requests, `halve_done` says that results stand where their items stand,
each given by the request that held the item, and `halve_total` that without an ending error there
are results.
-/

namespace Machine.Halving

open List

variable {X Y E : Type*}

inductive Reply (Y E : Type*) where
  | done (ys : List Y)
  | split (e : E)
  | fail (e : E)

/-- All requests, in order, and how it ended. A list of one item is not halved: the error stands. -/
def halve (send : Nat → Nat → List X → Reply Y E) (calls depth : Nat) (xs : List X) :
    List (List X) × Except E (List Y) :=
  match send calls depth xs with
  | .done ys => ([xs], .ok ys)
  | .fail e => ([xs], .error e)
  | .split e =>
    if _h : xs.length ≤ 1 then ([xs], .error e)
    else
      let left := halve send (calls + 1) (depth + 1) (xs.take (xs.length / 2))
      match left.2 with
      | .error e => (xs :: left.1, .error e)
      | .ok ys =>
        let right :=
          halve send (calls + 1 + left.1.length) (depth + 1) (xs.drop (xs.length / 2))
        (xs :: (left.1 ++ right.1), right.2.map (ys ++ ·))
termination_by xs.length
decreasing_by
  · rw [length_take]
    omega
  · rw [length_drop]
    omega

/-- How a halving ends, case by case. -/
theorem halve_cases (send : Nat → Nat → List X → Reply Y E) (calls depth : Nat) (xs : List X) :
    (∃ ys, send calls depth xs = .done ys ∧ halve send calls depth xs = ([xs], .ok ys)) ∨
    (∃ e, (send calls depth xs = .fail e ∨ send calls depth xs = .split e ∧ xs.length ≤ 1) ∧
      halve send calls depth xs = ([xs], .error e)) ∨
    (∃ e left, send calls depth xs = .split e ∧ 1 < xs.length ∧
      halve send (calls + 1) (depth + 1) (xs.take (xs.length / 2)) = left ∧
      ((∃ e', left.2 = .error e' ∧ halve send calls depth xs = (xs :: left.1, .error e')) ∨
        ∃ ys right, left.2 = .ok ys ∧
          halve send (calls + 1 + left.1.length) (depth + 1) (xs.drop (xs.length / 2)) = right ∧
          halve send calls depth xs = (xs :: (left.1 ++ right.1), right.2.map (ys ++ ·)))) := by
  cases hs : send calls depth xs with
  | done ys =>
    refine .inl ⟨ys, rfl, ?_⟩
    rw [halve, hs]
  | fail e =>
    refine .inr (.inl ⟨e, .inl rfl, ?_⟩)
    rw [halve, hs]
  | split e =>
    by_cases hl : xs.length ≤ 1
    · refine .inr (.inl ⟨e, .inr ⟨rfl, hl⟩, ?_⟩)
      rw [halve, hs]
      exact dif_pos hl
    · refine .inr (.inr ⟨e, _, rfl, Nat.lt_of_not_le hl, rfl, ?_⟩)
      cases hr : (halve send (calls + 1) (depth + 1) (xs.take (xs.length / 2))).2 with
      | error e' =>
        refine .inl ⟨e', rfl, ?_⟩
        rw [halve, hs]
        dsimp only
        rw [dif_neg hl, hr]
      | ok ys =>
        refine .inr ⟨ys, _, rfl, rfl, ?_⟩
        rw [halve, hs]
        dsimp only
        rw [dif_neg hl, hr]

/-- What is asked is a part of the list; a list with items is asked for at most twice as often as it
    has items, less one. -/
theorem halve_asked (send : Nat → Nat → List X → Reply Y E) (calls depth : Nat) (xs : List X) :
    (∀ req ∈ (halve send calls depth xs).1, req <:+: xs) ∧
      (xs ≠ [] → (halve send calls depth xs).1.length + 1 ≤ 2 * xs.length) := by
  have hone : (∀ req ∈ [xs], req <:+: xs) ∧ (xs ≠ [] → [xs].length + 1 ≤ 2 * xs.length) := by
    refine ⟨fun req h => mem_singleton.mp h ▸ infix_rfl, fun hne => ?_⟩
    have := length_pos_iff.mpr hne
    rw [length_singleton]
    omega
  rcases halve_cases send calls depth xs with ⟨ys, _, h⟩ | ⟨e, _, h⟩ | ⟨e, left, _, hlen, hl, h⟩
  · rw [h]
    exact hone
  · rw [h]
    exact hone
  have hne : xs.take (xs.length / 2) ≠ [] := by
    intro e
    have := congrArg List.length e
    rw [length_take, length_nil] at this
    omega
  have hne' : xs.drop (xs.length / 2) ≠ [] := by
    intro e
    have := congrArg List.length e
    rw [length_drop, length_nil] at this
    omega
  have ihl := halve_asked send (calls + 1) (depth + 1) (xs.take (xs.length / 2))
  rw [hl] at ihl
  have hcl := ihl.2 hne
  rw [length_take] at hcl
  have hleft : ∀ req ∈ left.1, req <:+: xs := fun req hr =>
    (ihl.1 req hr).trans (List.take_prefix _ _).isInfix
  rcases h with ⟨e', _, h⟩ | ⟨ys, right, _, hr, h⟩
  · rw [h]
    refine ⟨fun req hr => ?_, fun _ => ?_⟩
    · rcases mem_cons.mp hr with hr | hr
      · exact hr ▸ infix_rfl
      · exact hleft req hr
    · rw [length_cons]
      omega
  · have ihr := halve_asked send (calls + 1 + left.1.length) (depth + 1) (xs.drop (xs.length / 2))
    rw [hr] at ihr
    have hcr := ihr.2 hne'
    rw [length_drop] at hcr
    rw [h]
    refine ⟨fun req hq => ?_, fun _ => ?_⟩
    · rcases mem_cons.mp hq with hq | hq
      · exact hq ▸ infix_rfl
      · rcases mem_append.mp hq with hq | hq
        · exact hleft req hq
        · exact (ihr.1 req hq).trans (drop_suffix _ _).isInfix
    · rw [length_cons, length_append]
      omega
termination_by xs.length
decreasing_by
  · rw [length_take]
    omega
  · rw [length_drop]
    omega

/-- `y` is what the request that was made at some place gave for an item `x` it held. -/
def Given (send : Nat → Nat → List X → Reply Y E) (calls : Nat) (asked : List (List X))
    (x : X) (y : Y) :
    Prop :=
  ∃ (k : Nat) (req : List X) (d : Nat) (ys : List Y), asked[k]? = some req ∧
    send (calls + k) d req = .done ys ∧ ∃ j : Nat, req[j]? = some x ∧ ys[j]? = some y

variable {send : Nat → Nat → List X → Reply Y E} {calls : Nat}

theorem Given.append_right {asked : List (List X)} {x : X} {y : Y} (h : Given send calls asked x y)
    (more : List (List X)) : Given send calls (asked ++ more) x y := by
  obtain ⟨k, req, d, ys, hk, hs, hj⟩ := h
  refine ⟨k, req, d, ys, ?_, hs, hj⟩
  rw [List.getElem?_append_left (List.getElem?_eq_some_iff.mp hk).1, hk]

theorem Given.append_left {asked : List (List X)} {x : X} {y : Y} (before : List (List X))
    (h : Given send (calls + before.length) asked x y) :
    Given send calls (before ++ asked) x y := by
  obtain ⟨k, req, d, ys, hk, hs, hj⟩ := h
  refine ⟨before.length + k, req, d, ys, ?_, by rwa [← Nat.add_assoc], hj⟩
  rw [List.getElem?_append_right (Nat.le_add_right _ _), Nat.add_sub_cancel_left, hk]

/-- If a reply has a result for every item, then every item's result is one that was given for
    it. -/
theorem halve_done (hsend : ∀ n d xs ys, send n d xs = .done ys → ys.length = xs.length)
    (calls depth : Nat) (xs : List X) {ys : List Y} (h : (halve send calls depth xs).2 = .ok ys) :
    List.Forall₂ (Given send calls (halve send calls depth xs).1) xs ys := by
  rcases halve_cases send calls depth xs with ⟨zs, hs, hh⟩ | ⟨e, _, hh⟩ | ⟨e, left, _, hlen, hl, hh⟩
  · rw [hh] at h ⊢
    cases h
    rw [forall₂_iff_get]
    refine ⟨(hsend _ _ _ _ hs).symm, fun i hx hy => ?_⟩
    exact ⟨0, xs, depth, ys, rfl, hs, i, List.getElem?_eq_getElem hx, List.getElem?_eq_getElem hy⟩
  · rw [hh] at h
    cases h
  rcases hh with ⟨e', _, hh⟩ | ⟨zs, right, hz, hr, hh⟩
  · rw [hh] at h
    cases h
  rw [hh] at h ⊢
  cases hw : right.2 with
  | error e' =>
    rw [hw] at h
    cases h
  | ok ws =>
    rw [hw] at h
    cases h
    have ihl := halve_done hsend (calls + 1) (depth + 1) (xs.take (xs.length / 2)) (hl ▸ hz)
    have ihr := halve_done hsend (calls + 1 + left.1.length) (depth + 1) (xs.drop (xs.length / 2))
      (hr ▸ hw)
    rw [hl] at ihl
    rw [hr] at ihr
    have hcons : ∀ {x y}, Given send (calls + 1) (left.1 ++ right.1) x y →
        Given send calls (xs :: (left.1 ++ right.1)) x y := fun hg => hg.append_left [xs]
    have hboth := rel_append (ihl.imp fun _ _ hg => hcons (hg.append_right right.1))
      (ihr.imp fun _ _ hg => hcons (hg.append_left left.1))
    dsimp only at hboth
    rwa [take_append_drop] at hboth
termination_by xs.length
decreasing_by
  · rw [length_take]
    omega
  · rw [length_drop]
    omega

/-- What every reply keeps between its items and its results, the halving keeps. -/
theorem halve_forall₂ {R : X → Y → Prop}
    (hsend : ∀ n d xs ys, send n d xs = .done ys → List.Forall₂ R xs ys) (calls depth : Nat)
    {xs : List X} {ys : List Y} (h : (halve send calls depth xs).2 = .ok ys) :
    List.Forall₂ R xs ys := by
  refine (halve_done (fun n d xs ys hd => (hsend n d xs ys hd).length_eq.symm) calls depth
    xs h).imp ?_
  intro x y hg
  obtain ⟨k, req, d, zs, _, hd, j, hx, hy⟩ := hg
  obtain ⟨hjx, rfl⟩ := List.getElem?_eq_some_iff.mp hx
  obtain ⟨hjy, rfl⟩ := List.getElem?_eq_some_iff.mp hy
  exact (hsend _ _ _ _ hd).get hjx hjy

/-- If no part of the list ends everything, there are results. -/
theorem halve_total (calls depth : Nat) (xs : List X)
    (hfail : ∀ n d ys e, ys <:+: xs → send n d ys ≠ .fail e)
    (hsplit : ∀ n d ys e, ys <:+: xs → send n d ys = .split e → 1 < ys.length) :
    ∃ ys, (halve send calls depth xs).2 = .ok ys := by
  rcases halve_cases send calls depth xs with ⟨zs, hs, hh⟩ | ⟨e, he, hh⟩ |
    ⟨e, left, _, hlen, hl, hh⟩
  · exact ⟨zs, by rw [hh]⟩
  · rcases he with he | ⟨he, hle⟩
    · exact absurd he (hfail _ _ _ _ infix_rfl)
    · exact absurd (hsplit _ _ _ _ infix_rfl he) (Nat.not_lt.mpr hle)
  have hpart : ∀ (n : Nat) {part : List X}, part <:+: xs → part.length < xs.length →
      ∃ ys, (halve send n (depth + 1) part).2 = .ok ys := fun n part hin _ =>
    halve_total n (depth + 1) part (fun n d ys e hy => hfail n d ys e (hy.trans hin))
      (fun n d ys e hy => hsplit n d ys e (hy.trans hin))
  rcases hh with ⟨e', he, _⟩ | ⟨zs, right, _, hr, hh⟩
  · obtain ⟨ys, hy⟩ := hpart (calls + 1) (List.take_prefix (xs.length / 2) xs).isInfix
      (by rw [length_take]; omega)
    rw [hl, he] at hy
    cases hy
  · obtain ⟨ys, hy⟩ := hpart (calls + 1 + left.1.length)
      (drop_suffix (xs.length / 2) xs).isInfix (by rw [length_drop]; omega)
    rw [hr] at hy
    exact ⟨zs ++ ys, by rw [hh, hy]; rfl⟩
termination_by xs.length

end Machine.Halving
