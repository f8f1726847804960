import Mathlib.Data.List.Basic

/-!
# A volume whose last changes a crash may lose

A volume is what programs see of it (`live`) together with everything a crash might leave
(`images`). An operation belongs to the directories whose entries it changes. It may be lost in a
crash, and then every later operation on one of these directories is lost as well; operations that
have no directory in common are lost independently. `behind` is the list of directories of which an
image has lost something; `fsync` makes the images that are behind on a directory impossible.

An operation acts on both directories of a rename at once, so a rename is there as a whole or not at
all. What holds of all images is carried through by `All.op`, `All.fsync` and `All.crash`.
-/

namespace Machine

open List

/-- What a crash might leave. -/
structure Image (D Dir : Type*) where
  disk : D
  behind : List Dir

namespace Image

variable {D Dir : Type*} [DecidableEq Dir] {dirs : List Dir} {f : D → D} {i j : Image D Dir}

/-- An image has the operation, if it has everything before it on the same directories, or loses
    it. -/
def after (dirs : List Dir) (f : D → D) (i : Image D Dir) : List (Image D Dir) :=
  if dirs.any (· ∈ i.behind) then [⟨i.disk, dirs ++ i.behind⟩]
  else [⟨f i.disk, i.behind⟩, ⟨i.disk, dirs ++ i.behind⟩]

theorem mem_after :
    j ∈ after dirs f i ↔
      j = ⟨i.disk, dirs ++ i.behind⟩ ∨ (∀ d ∈ dirs, d ∉ i.behind) ∧ j = ⟨f i.disk, i.behind⟩ := by
  unfold after
  split
  · rename_i hany
    obtain ⟨d, hd, hb⟩ := any_eq_true.mp hany
    rw [mem_singleton]
    refine ⟨.inl, fun h => h.resolve_right fun h' => h'.1 d hd (of_decide_eq_true hb)⟩
  · rename_i hany
    have hall : ∀ d ∈ dirs, d ∉ i.behind := by
      intro d hd hb
      exact hany (any_eq_true.mpr ⟨d, hd, decide_eq_true hb⟩)
    simp only [mem_cons, not_mem_nil, or_false]
    exact ⟨fun h => h.symm.imp_right fun e => ⟨hall, e⟩, fun h => h.symm.imp_left And.right⟩

end Image

structure Volume (D Dir : Type*) where
  live : D
  images : List (Image D Dir)
  current : ⟨live, []⟩ ∈ images

namespace Volume

variable {D Dir : Type*}

/-- Everything has reached the disk. -/
def clean (d : D) : Volume D Dir := ⟨d, [⟨d, []⟩], mem_singleton.mpr rfl⟩

/-- `P` holds of every image. -/
def All (P : D → List Dir → Prop) (v : Volume D Dir) : Prop := ∀ i ∈ v.images, P i.disk i.behind

section Images

variable {v v' : Volume D Dir} {P Q : D → List Dir → Prop}

theorem All.live (h : v.All P) : P v.live [] := h _ v.current

theorem All.mono (h : v.All P) (hPQ : ∀ d b, P d b → Q d b) : v.All Q :=
  fun i hi => hPQ _ _ (h i hi)

theorem All.and (h : v.All P) (h' : v.All Q) : v.All fun d b => P d b ∧ Q d b :=
  fun i hi => ⟨h i hi, h' i hi⟩

theorem all_clean {d : D} (h : P d []) : (clean d : Volume D Dir).All P := by
  intro i hi
  rw [mem_singleton.mp hi]
  exact h

/-- One of the images is what is left. -/
def crash (v : Volume D Dir) (k : Nat) : Option (Volume D Dir) :=
  v.images[k]?.map fun i => clean i.disk

theorem All.crash {k : Nat} (h : v.All P) (hc : v.crash k = some v') :
    ∃ i, v.images[k]? = some i ∧ P i.disk i.behind ∧ v' = clean i.disk := by
  obtain ⟨i, hi, rfl⟩ := Option.map_eq_some_iff.mp hc
  exact ⟨i, hi, h i (mem_of_getElem? hi), rfl⟩

end Images

variable [DecidableEq Dir]

/-- The operation `f` on the entries of `dirs`. -/
def op (dirs : List Dir) (f : D → D) (v : Volume D Dir) : Volume D Dir where
  live := f v.live
  images := v.images.flatMap (Image.after dirs f)
  current := mem_flatMap.mpr ⟨_, v.current, Image.mem_after.mpr
    (.inr ⟨fun _ _ => not_mem_nil, rfl⟩)⟩

/-- The entries of the directory have reached the disk. -/
def fsync (d : Dir) (v : Volume D Dir) : Volume D Dir where
  live := v.live
  images := v.images.filter fun i => d ∉ i.behind
  current := mem_filter.mpr ⟨v.current, decide_eq_true not_mem_nil⟩

@[simp] theorem live_op (dirs : List Dir) (f : D → D) (v : Volume D Dir) :
    (v.op dirs f).live = f v.live := rfl

variable {v : Volume D Dir} {P Q : D → List Dir → Prop}

/-- **An operation.** The images that have it and those that lose it. -/
theorem All.op {dirs : List Dir} {f : D → D} (h : v.All P)
    (has : ∀ d b, P d b → (∀ x ∈ dirs, x ∉ b) → Q (f d) b)
    (loses : ∀ d b, P d b → Q d (dirs ++ b)) :
    (v.op dirs f).All Q := by
  intro j hj
  obtain ⟨i, hi, hij⟩ := mem_flatMap.mp hj
  rcases Image.mem_after.mp hij with rfl | ⟨hb, rfl⟩
  · exact loses _ _ (h i hi)
  · exact has _ _ (h i hi) hb

/-- **A sync.** Only the images that are up to date on the directory are left. -/
theorem All.fsync {d : Dir} (h : v.All P) (hQ : ∀ x b, P x b → d ∉ b → Q x b) :
    (v.fsync d).All Q := by
  intro i hi
  obtain ⟨hi, hd⟩ := mem_filter.mp hi
  exact hQ _ _ (h i hi) (of_decide_eq_true hd)

/-- What holds of all images survives a sync. -/
theorem All.sync {d : Dir} (h : v.All P) : (v.fsync d).All P := h.fsync fun _ _ hp _ => hp

/-- What an operation keeps, whatever it is behind on. -/
theorem All.keep {dirs : List Dir} {f : D → D} {P : D → Prop} (h : v.All fun d _ => P d)
    (hf : ∀ d, P d → P (f d)) : (v.op dirs f).All fun d _ => P d :=
  h.op (fun d _ hp _ => hf d hp) fun _ _ hp => hp

end Volume

end Machine
