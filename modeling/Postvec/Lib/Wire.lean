import Mathlib.Algebra.Order.Ring.Nat
import Mathlib.Data.List.Basic
import Mathlib.Data.List.Induction
import Mathlib.Tactic.TypeStar

/-!
# Fields of a binary message

Bytes are lists of `UInt8`. A field is a `Codec`: how a value is written, how it is read from the
front of some bytes, which values it has, and that reading and writing undo each other. Numbers are
big-endian.
-/

namespace Machine.Wire

open List Option

abbrev Bytes := List UInt8

/-! ## 1. Numbers -/

/-- The low `w` bytes of a number, most significant first. -/
def be : Nat → Nat → Bytes
  | 0, _ => []
  | w + 1, n => be w (n / 256) ++ [UInt8.ofNat n]

/-- The number some bytes spell. -/
def number (bs : Bytes) : Nat := bs.foldl (fun n b => n * 256 + b.toNat) 0

@[simp] theorem be_length (w n : Nat) : (be w n).length = w := by
  induction w generalizing n with
  | zero => rfl
  | succ w ih => rw [be, length_append, ih, length_singleton]

theorem number_snoc (bs : Bytes) (b : UInt8) : number (bs ++ [b]) = number bs * 256 + b.toNat := by
  rw [number, foldl_append]
  rfl

theorem number_be {w n : Nat} (h : n < 256 ^ w) : number (be w n) = n := by
  induction w generalizing n with
  | zero =>
    rw [Nat.pow_zero] at h
    exact (Nat.lt_one_iff.mp h).symm
  | succ w ih =>
    have hdiv : n / 256 < 256 ^ w := Nat.div_lt_of_lt_mul (by rwa [Nat.mul_comm, ← Nat.pow_succ])
    rw [be, number_snoc, ih hdiv, UInt8.toNat_ofNat']
    omega

theorem number_lt (bs : Bytes) : number bs < 256 ^ bs.length := by
  induction bs using List.reverseRecOn with
  | nil => exact Nat.one_pos
  | append_singleton bs b ih =>
    rw [number_snoc, length_append, length_singleton, Nat.pow_succ]
    have := b.toNat_lt
    omega

theorem be_number (bs : Bytes) : be bs.length (number bs) = bs := by
  induction bs using List.reverseRecOn with
  | nil => rfl
  | append_singleton bs b ih =>
    have hb := b.toNat_lt
    have hdiv : (number bs * 256 + b.toNat) / 256 = number bs := by omega
    have hlast : UInt8.ofNat (number bs * 256 + b.toNat) = b := by
      refine UInt8.toNat_inj.mp ?_
      rw [UInt8.toNat_ofNat']
      omega
    rw [number_snoc, length_append, length_singleton, be, hdiv, ih, hlast]

/-! ## 2. Codecs -/

/-- How a kind of value stands in a message. -/
structure Codec (α : Type*) where
  write : α → Bytes
  read : Bytes → Option (α × Bytes)
  Valid : α → Prop
  read_write : ∀ {a}, Valid a → ∀ rest, read (write a ++ rest) = some (a, rest)
  write_read : ∀ {bs a rest}, read bs = some (a, rest) → bs = write a ++ rest ∧ Valid a

variable {α : Type*}

/-- The first `n` bytes. -/
def takeBytes (n : Nat) (bs : Bytes) : Option (Bytes × Bytes) :=
  if n ≤ bs.length then some (bs.take n, bs.drop n) else none

theorem takeBytes_append {n : Nat} {front : Bytes} (h : front.length = n) (rest : Bytes) :
    takeBytes n (front ++ rest) = some (front, rest) := by
  subst h
  rw [takeBytes, if_pos (by rw [length_append]; omega), take_left, drop_left]

theorem eq_append_of_takeBytes {n : Nat} {bs front rest : Bytes}
    (h : takeBytes n bs = some (front, rest)) : bs = front ++ rest ∧ front.length = n := by
  unfold takeBytes at h
  split at h
  · cases h
    rename_i hn
    exact ⟨(take_append_drop n bs).symm, length_take_of_le hn⟩
  · cases h

/-- A number of `w` bytes. -/
def word (w : Nat) : Codec Nat where
  write := be w
  read bs := (takeBytes w bs).map fun r => (number r.1, r.2)
  Valid n := n < 256 ^ w
  read_write := by
    intro n hn rest
    rw [takeBytes_append (be_length w n), map_some, number_be hn]
  write_read := by
    intro bs n rest h
    obtain ⟨⟨front, rest'⟩, ht, h⟩ := map_eq_some_iff.mp h
    cases h
    obtain ⟨rfl, hlen⟩ := eq_append_of_takeBytes ht
    dsimp only
    rw [← hlen]
    exact ⟨by rw [be_number], number_lt front⟩

/-- Bytes up to the first zero. -/
def cstring : Codec Bytes where
  write s := s ++ [0]
  read bs :=
    match bs.dropWhile (· ≠ 0) with
    | [] => none
    | _ :: rest => some (bs.takeWhile (· ≠ 0), rest)
  Valid s := (0 : UInt8) ∉ s
  read_write := by
    intro s hs rest
    have hall : ∀ b ∈ s, decide (b ≠ 0) = true := fun b hb =>
      decide_eq_true fun e => hs (e ▸ hb)
    rw [append_assoc, dropWhile_append_of_pos hall, takeWhile_append_of_pos hall]
    simp
  write_read := by
    intro bs s rest h
    split at h
    · cases h
    · rename_i b rest' hd
      cases h
      have hb : b = 0 := by
        have hne : bs.dropWhile (fun b => decide (b ≠ 0)) ≠ [] := by
          rw [hd]
          exact cons_ne_nil _ _
        have hnot := head_dropWhile_not (fun b : UInt8 => decide (b ≠ 0)) hne
        simp only [hd, head_cons] at hnot
        exact not_not.mp (of_decide_eq_false hnot)
      subst hb
      refine ⟨?_, fun h0 => ?_⟩
      · rw [append_assoc, singleton_append, ← hd, takeWhile_append_dropWhile]
      · have hne := List.all_eq_true.mp all_takeWhile 0 h0
        exact absurd rfl (of_decide_eq_true hne)

/-- Items one after the other. -/
def readMany (read : Bytes → Option (α × Bytes)) : Nat → Bytes → Option (List α × Bytes)
  | 0, bs => some ([], bs)
  | n + 1, bs => do
    let (a, bs) ← read bs
    let (as, bs) ← readMany read n bs
    some (a :: as, bs)

theorem readMany_write (c : Codec α) : ∀ {as : List α}, (∀ a ∈ as, c.Valid a) → ∀ rest,
    readMany c.read as.length (as.flatMap c.write ++ rest) = some (as, rest)
  | [], _, _ => rfl
  | a :: as, h, rest => by
    rw [length_cons, readMany, flatMap_cons, append_assoc,
      c.read_write (h a mem_cons_self)]
    dsimp only [bind, Option.bind]
    rw [readMany_write c (fun b hb => h b (mem_cons_of_mem _ hb))]

theorem write_readMany (c : Codec α) : ∀ {n : Nat} {bs rest : Bytes} {as : List α},
    readMany c.read n bs = some (as, rest) →
    bs = as.flatMap c.write ++ rest ∧ as.length = n ∧ ∀ a ∈ as, c.Valid a
  | 0, bs, rest, as, h => by
    cases h
    exact ⟨rfl, rfl, fun _ h => absurd h not_mem_nil⟩
  | n + 1, bs, rest, as, h => by
    rw [readMany] at h
    obtain ⟨⟨a, bs'⟩, ha, h⟩ := bind_eq_some_iff.mp h
    obtain ⟨⟨as', bs''⟩, has, h⟩ := bind_eq_some_iff.mp h
    cases h
    obtain ⟨rfl, hva⟩ := c.write_read ha
    obtain ⟨rfl, rfl, hvs⟩ := write_readMany c has
    refine ⟨by rw [flatMap_cons, append_assoc], rfl, fun b hb => ?_⟩
    rcases mem_cons.mp hb with hb | hb
    · exact hb ▸ hva
    · exact hvs b hb

/-- A counted list: two bytes of count, then the items. -/
def counted (c : Codec α) : Codec (List α) where
  write as := be 2 as.length ++ as.flatMap c.write
  read bs := ((word 2).read bs).bind fun r => readMany c.read r.1 r.2
  Valid as := as.length < 65536 ∧ ∀ a ∈ as, c.Valid a
  read_write := by
    intro as h rest
    have hvalid : (word 2).Valid as.length := h.1
    have hcount := (word 2).read_write hvalid (as.flatMap c.write ++ rest)
    rw [append_assoc]
    change ((word 2).read ((word 2).write as.length ++ _)).bind _ = _
    rw [hcount]
    exact readMany_write c h.2 rest
  write_read := by
    intro bs as rest h
    obtain ⟨⟨n, bs'⟩, hn, h⟩ := bind_eq_some_iff.mp h
    obtain ⟨hbs, hlt⟩ := (word 2).write_read hn
    obtain ⟨hrest, hlen, hvalid⟩ := write_readMany c h
    dsimp only at hrest hlen
    refine ⟨?_, ?_, hvalid⟩
    · rw [append_assoc, hlen, ← hrest]
      exact hbs
    · rw [hlen]
      exact hlt

end Machine.Wire
