import Mathlib.Algebra.GroupWithZero.Nat
import Mathlib.Data.List.Pairwise
import Postvec.Registry.ArchiveRead

/-!
# Writing an archive and extracting it

`Accepted` is what the deterministic writer has checked and made when it succeeds. The strict reader
checks more: that there is a file, that no file is where another needs a directory, and that there
are not too many entries. So what was written comes back exactly if the input has these properties
too (`Extractable`); they do not follow from the writer's own checks.

* `writeDeterministic_perm`: the order of the inputs does not matter;
* **`extracts_iff`**: the archive of accepted inputs is extracted to exactly these files, if and
  only if the inputs are `Extractable`;
* `nested_refused`: a file `a` next to a file `a/b` is written and then refused.
-/

namespace Postvec.Registry.Archive

open Machine List

/-! ## 1. What the tar library is trusted with -/

variable {β : Type} {i : ArchiveInput}

/-- An entry with a plain path that fits, with as many bytes as its header says. -/
def Written (tar : Tar β) (e : Entry) : Prop :=
  ∃ root cs path, PlainRoot root ∧ (∀ c ∈ cs, Plain c) ∧
    (path = joined (root :: cs) ∨ path = dirPath root cs) ∧ tar.setPath path = .ok () ∧
    (e = dirEntry path ∨ ∃ bytes, e = fileEntry path bytes)

/-- The tar library reads what it has written, and a ustar header has 100 bytes for a name and 155
    for what is before it. -/
structure Tar.Faithful (tar : Tar β) : Prop where
  fits : ∀ path, tar.setPath path = .ok () → byteLen path ≤ 256
  reads : ∀ es, (∀ e ∈ es, Written tar e) → tar.entries (tar.build es) = es.map .ok

/-! ## 2. The writer's checks -/

/-- A part between slashes has none, and its characters are the text's. -/
theorem mem_splitOn_slash {c t : Text} (h : c ∈ t.splitOn '/') : '/' ∉ c ∧ ∀ x ∈ c, x ∈ t := by
  by_cases ht : '/' ∈ t
  · obtain ⟨xs, rest, rfl, hxs⟩ := eq_append_cons_of_mem ht
    rw [splitOn_append_cons_self_of_not_mem hxs] at h
    rcases mem_cons.mp h with rfl | h
    · exact ⟨hxs, fun x hx => mem_append_left _ hx⟩
    · obtain ⟨hs, hin⟩ := mem_splitOn_slash h
      exact ⟨hs, fun x hx => by simp [hin x hx]⟩
  · rw [splitOn_eq_singleton ht, mem_singleton] at h
    subst h
    exact ⟨ht, fun _ hx => hx⟩
termination_by t.length
decreasing_by grind

theorem plain_of_plainRelative (h : plainRelative i.relativePath = true) :
    ∀ c ∈ i.components, Plain c := by
  intro c hc
  obtain ⟨hslash, hmem⟩ := mem_splitOn_slash hc
  unfold plainRelative at h
  simp only [Bool.and_eq_true, Bool.not_eq_true', all_eq_true] at h
  obtain ⟨⟨⟨⟨-, hcomp⟩, -⟩, hback⟩, hctl⟩ := h
  have hplain := hcomp c hc
  unfold plainComponent at hplain
  simp only [Bool.not_eq_true', Bool.or_eq_false_iff, isEmpty_eq_false_iff,
    beq_eq_false_iff_ne, decide_eq_false_iff_not, Nat.not_lt] at hplain
  obtain ⟨⟨⟨hfilled, hdot⟩, hdots⟩, hshort⟩ := hplain
  refine ⟨hfilled, hdot, hdots, hshort, hslash, fun h => ?_, fun x hx => ?_⟩
  · simp only [contains_eq_mem, decide_eq_false_iff_not] at hback
    exact hback (hmem _ h)
  · simp only [any_eq_false, Bool.not_eq_true] at hctl
    exact hctl x (hmem x hx)

variable {is : List ArchiveInput} {root : Text}

/-- Neighbours in sorted order that differ are in strict order. -/
theorem pairwise_of_checkTwice
    (hs : is.Pairwise fun a b => a.relativePath ≤ b.relativePath) (h : checkTwice is = .ok ()) :
    is.Pairwise fun a b => a.relativePath < b.relativePath := by
  induction is with
  | nil => exact .nil
  | cons a is ih =>
    obtain ⟨ha, hs⟩ := pairwise_cons.mp hs
    cases is with
    | nil => exact pairwise_singleton _ _
    | cons b is =>
      unfold checkTwice at h
      rw [ite_error_ok] at h
      have hrest := ih hs h.2
      have hab : a.relativePath < b.relativePath := lt_of_le_of_ne (ha b mem_cons_self) h.1
      refine pairwise_cons.mpr ⟨fun c hc => ?_, hrest⟩
      rcases mem_cons.mp hc with rfl | hc
      · exact hab
      · exact lt_trans hab ((pairwise_cons.mp hrest).1 c hc)

theorem perm_sortInputs (inputs : List ArchiveInput) : (sortInputs inputs).Perm inputs :=
  perm_insertionSort _ _

theorem mem_sortInputs : i ∈ sortInputs is ↔ i ∈ is := (perm_sortInputs is).mem_iff

theorem pairwise_sortInputs (inputs : List ArchiveInput) :
    (sortInputs inputs).Pairwise fun a b => a.relativePath ≤ b.relativePath :=
  pairwise_insertionSort (Order.Preimage ArchiveInput.relativePath (· ≤ ·)) inputs

/-! ## 3. The directories -/

/-- The directories that are made: those above the files, with the root. -/
def directories (root : Text) (is : List ArchiveInput) : List Text :=
  sortedSet ((root ++ ['/']) :: is.flatMap fun i => ancestorDirs root [] i.parent)

theorem flatMap_slash (root : Text) (cs : List Text) :
    root ++ '/' :: cs.flatMap (· ++ ['/']) = dirPath root cs := by
  unfold dirPath
  rw [joined_cons]
  induction cs generalizing root with
  | nil => simp
  | cons c cs ih =>
    have h := ih (root ++ '/' :: c)
    simp only [flatMap_cons, append_assoc, cons_append] at h ⊢
    exact h

theorem ancestorDirs_eq {cs : List Text} : ∀ {above : List Text},
    ancestorDirs root (above.flatMap (· ++ ['/'])) cs =
      cs.inits.tail.map fun p => dirPath root (above ++ p) := by
  induction cs with
  | nil => simp [ancestorDirs]
  | cons c cs ih =>
    intro above
    have hjoin : above.flatMap (· ++ ['/']) ++ c ++ ['/'] =
        (above ++ [c]).flatMap (· ++ ['/']) := by
      simp
    unfold ancestorDirs
    rw [hjoin, ih, flatMap_slash]
    have htail : cs.inits = [] :: cs.inits.tail := by cases cs <;> simp
    rw [inits_cons, tail_cons, htail]
    simp [Function.comp_def]

/-- A directory that is made is the root or above a file. -/
theorem mem_directories {d : Text} :
    d ∈ directories root is ↔ d = dirPath root [] ∨
      ∃ i ∈ is, ∃ p, OnWay [] i.parent p ∧ d = dirPath root p := by
  have hone : ∀ i : ArchiveInput, d ∈ ancestorDirs root [] i.parent ↔
      ∃ p, OnWay [] i.parent p ∧ d = dirPath root p := by
    intro i
    have h : ancestorDirs root [] i.parent = i.parent.inits.tail.map fun p => dirPath root p :=
      @ancestorDirs_eq root i.parent []
    have htail : ∀ p, p ∈ i.parent.inits.tail ↔ OnWay [] i.parent p := by
      intro p
      rw [onWay_iff]
      cases i.parent with
      | nil => simp
      | cons c cs =>
        rw [inits_cons, tail_cons, mem_map]
        constructor
        · rintro ⟨q, hq, rfl⟩
          exact ⟨cons_ne_nil _ _,
            cons_prefix_cons.mpr ⟨rfl, (mem_inits q cs).mp hq⟩⟩
        · rintro ⟨hne, hp⟩
          obtain ⟨b, q, rfl⟩ := exists_cons_of_ne_nil hne
          obtain ⟨rfl, hq⟩ := cons_prefix_cons.mp hp
          exact ⟨q, (mem_inits q cs).mpr hq, rfl⟩
    simp only [h, mem_map, htail, @eq_comm _ d]
  have hroot : root ++ ['/'] = dirPath root [] := by simp [dirPath, joined]
  unfold directories sortedSet
  rw [(perm_insertionSort _ _).mem_iff, List.mem_dedup, mem_cons, mem_flatMap, hroot]
  simp only [hone]

theorem nodup_directories (root : Text) (is : List ArchiveInput) : (directories root is).Nodup :=
  (perm_insertionSort _ _).nodup_iff.mpr (nodup_dedup _)

theorem collectDirs_ok : ∀ {dirs : List Text},
    collectDirs root is = .ok dirs ↔ (∀ i ∈ is, plainRelative i.relativePath = true) ∧
      dirs = is.flatMap fun i => ancestorDirs root [] i.parent := by
  induction is with
  | nil =>
    intro dirs
    simp only [collectDirs, Except.ok.injEq, flatMap_nil, not_mem_nil, false_imp_iff,
      implies_true, true_and]
    exact eq_comm
  | cons i is ih =>
    intro dirs
    unfold collectDirs
    simp only [ite_error_ok, bind_ok, ih, pure_ok, Bool.not_eq_true', Bool.not_eq_false]
    constructor
    · rintro ⟨hi, _, ⟨his, rfl⟩, rfl⟩
      exact ⟨forall_mem_cons.mpr ⟨hi, his⟩, rfl⟩
    · rintro ⟨his, rfl⟩
      obtain ⟨hi, his⟩ := forall_mem_cons.mp his
      exact ⟨hi, _, ⟨his, rfl⟩, rfl⟩

/-! ## 4. What is written -/

section Writing

variable {tar : Tar β} {inputs : List ArchiveInput} {w : WrittenArchive β}

theorem packHeader_ok {path : Text} {size mode : Nat} {kind : EntryType} {h : Header} :
    packHeader tar path size mode kind = .ok h ↔
      tar.setPath path = .ok () ∧ h = packed path size mode kind := by
  unfold packHeader
  rw [check_ok, mapError_ok, pure_ok]
  exact and_congr_right fun _ => eq_comm

theorem appendDirs_ok {ds : List Text} : ∀ {es : List Entry}, appendDirs tar ds = .ok es ↔
    (∀ d ∈ ds, tar.setPath d = .ok ()) ∧ es = ds.map dirEntry := by
  induction ds with
  | nil => simp [appendDirs, eq_comm]
  | cons d ds ih =>
    intro es
    unfold appendDirs
    simp only [bind_ok, packHeader_ok, ih, pure_ok, map_cons]
    constructor
    · rintro ⟨_, ⟨hd, rfl⟩, _, ⟨hds, rfl⟩, rfl⟩
      exact ⟨forall_mem_cons.mpr ⟨hd, hds⟩, rfl⟩
    · rintro ⟨hds, rfl⟩
      obtain ⟨hd, hds⟩ := forall_mem_cons.mp hds
      exact ⟨_, ⟨hd, rfl⟩, _, ⟨hds, rfl⟩, rfl⟩

theorem appendFiles_ok : ∀ {start total : Nat} {es : List Entry},
    appendFiles tar root start is = .ok (total, es) → start < 2 ^ 64 →
    (∀ i ∈ is, tar.setPath (filePath root i) = .ok () ∧ i.source = .regular i.bytes) ∧
      total = start + (is.map fun i => i.bytes.length).sum ∧ total < 2 ^ 64 ∧
      es = is.map fun i => fileEntry (filePath root i) i.bytes := by
  induction is with
  | nil =>
    intro start total es h hlt
    cases h
    exact ⟨by simp, by simp, hlt, rfl⟩
  | cons i is ih =>
    intro start total es h hlt
    unfold appendFiles at h
    split at h
    · cases h
    · cases h
    · rename_i bytes hbytes
      have hb : i.bytes = bytes := by simp [ArchiveInput.bytes, hbytes]
      split at h
      · cases h
      · rename_i mid hmid
        simp only [checkedAdd, Option.ite_none_right_eq_some, Option.some.injEq] at hmid
        simp only [bind_ok, packHeader_ok, pure_ok] at h
        obtain ⟨_, ⟨hfit, rfl⟩, ⟨total', es'⟩, hrest, hout⟩ := h
        cases hout
        obtain ⟨hall, htot, hbound, hes⟩ := ih hrest (hmid.2 ▸ hmid.1)
        refine ⟨forall_mem_cons.mpr ⟨⟨hfit, hb ▸ hbytes⟩, hall⟩, ?_, hbound, ?_⟩
        · rw [htot, ← hmid.2, map_cons, sum_cons, hb]
          omega
        · rw [hes, map_cons, hb]
          rfl

/-- What the writer has checked, and what it has made. -/
structure Accepted (tar : Tar β) (root : Text) (inputs : List ArchiveInput)
    (w : WrittenArchive β) : Prop where
  sorted : (sortInputs inputs).Pairwise fun a b => a.relativePath < b.relativePath
  plain : ∀ i ∈ inputs, plainRelative i.relativePath = true
  dirsFit : ∀ d ∈ directories root (sortInputs inputs), tar.setPath d = .ok ()
  filesFit : ∀ i ∈ inputs, tar.setPath (filePath root i) = .ok ()
  regular : ∀ i ∈ inputs, i.source = .regular i.bytes
  installed : w.installedSize = ((sortInputs inputs).map fun i => i.bytes.length).sum
  bound : w.installedSize < 2 ^ 64
  archive : w.archive = tar.build ((directories root (sortInputs inputs)).map dirEntry ++
    (sortInputs inputs).map fun i => fileEntry (filePath root i) i.bytes)

theorem writeDeterministic_ok (h : writeDeterministic tar root inputs = .ok w) :
    Accepted tar root inputs w := by
  unfold writeDeterministic at h
  simp only [check_ok] at h
  obtain ⟨htwice, h⟩ := h
  simp only [bind_ok, collectDirs_ok, appendDirs_ok, pure_ok] at h
  obtain ⟨_, ⟨hplain, rfl⟩, _, ⟨hdirs, rfl⟩, ⟨total, es⟩, hfiles, rfl⟩ := h
  obtain ⟨hall, htot, hbound, rfl⟩ := appendFiles_ok hfiles (by decide)
  exact {
    sorted := pairwise_of_checkTwice (pairwise_sortInputs inputs) htwice
    plain := fun i hi => hplain i (mem_sortInputs.mpr hi)
    dirsFit := hdirs
    filesFit := fun i hi => (hall i (mem_sortInputs.mpr hi)).1
    regular := fun i hi => (hall i (mem_sortInputs.mpr hi)).2
    installed := by simpa using htot
    bound := hbound
    archive := rfl }

/-- The writer looks at the sorted inputs only, and inputs with different paths are sorted in one
    way. -/
theorem writeDeterministic_perm {inputs' : List ArchiveInput} (hA : Accepted tar root inputs w)
    (hp : inputs'.Perm inputs) : writeDeterministic tar root inputs' =
    writeDeterministic tar root inputs := by
  have hperm : (sortInputs inputs').Perm (sortInputs inputs) :=
    (perm_sortInputs inputs').trans (hp.trans (perm_sortInputs inputs).symm)
  have heq : sortInputs inputs' = sortInputs inputs := by
    refine hperm.eq_of_pairwise (fun a b ha hb hab hba => ?_) (pairwise_sortInputs inputs')
      (pairwise_sortInputs inputs)
    have ha' : a ∈ sortInputs inputs := hperm.mem_iff.mp ha
    have hpath : a.relativePath = b.relativePath := le_antisymm hab hba
    by_contra hne
    have hsym : (sortInputs inputs).Pairwise fun a b => a.relativePath ≠ b.relativePath :=
      hA.sorted.imp ne_of_lt
    have : Std.Symm fun a b : ArchiveInput => a.relativePath ≠ b.relativePath :=
      ⟨fun _ _ h => h.symm⟩
    exact hsym.forall ha' hb hne hpath
  unfold writeDeterministic
  rw [heq]

end Writing

/-! ## 5. The round trip -/

/-- What the files leave in an empty directory: themselves, and the directories above them. -/
def contents (inputs : List ArchiveInput) : Tree := fun p =>
  match inputs.find? fun i => i.components == p with
  | some i => some (.file 0o644 i.bytes)
  | none =>
    if p ≠ [] ∧ inputs.any fun i => p.isPrefixOf i.components then some (.dir 0o755) else none

/-- The inputs whose archive the reader takes. -/
structure Extractable (inputs : List ArchiveInput) : Prop where
  filled : inputs ≠ []
  /-- no file is where another needs a directory -/
  apart : ∀ f ∈ inputs, ∀ g ∈ inputs, f.components <+: g.components → f.components = g.components
  /-- the directories, with the root, and the files -/
  few : (inputs.flatMap fun i => i.parent.inits).dedup.length + inputs.length ≤ maxEntries

theorem prefix_parent {p : List Text} :
    p <+: i.parent ↔ p <+: i.components ∧ p ≠ i.components := by
  have hsplit := dropLast_concat_getLast (components_ne_nil i)
  unfold ArchiveInput.parent
  constructor
  · intro h
    refine ⟨h.trans (List.dropLast_prefix _), fun e => ?_⟩
    have hlen := h.length_le
    have hpos := length_pos_of_ne_nil (components_ne_nil i)
    rw [e, length_dropLast] at hlen
    omega
  · rintro ⟨h, hne⟩
    rw [← hsplit, prefix_concat_iff, hsplit] at h
    exact h.resolve_left hne

variable {inputs : List ArchiveInput}

theorem apart_iff : Apart inputs ↔
    ∀ f ∈ inputs, ∀ g ∈ inputs, f.components <+: g.components → f.components = g.components := by
  unfold Apart
  refine forall₄_congr fun f _ g _ => ?_
  rw [onWay_iff, prefix_parent]
  constructor
  · intro h hp
    by_contra hne
    exact h ⟨components_ne_nil f, hp, hne⟩
  · rintro h ⟨-, hp, hne⟩
    exact hne (h hp)

/-- When all files are written, the directory holds them and nothing else. -/
theorem Filled.eq_contents {done : List ArchiveInput} {t : Tree} (h : Filled inputs done t)
    (hdone : ∀ f, f ∈ done ↔ f ∈ inputs) : t = contents inputs := by
  funext p
  unfold contents
  cases hf : inputs.find? fun i => i.components == p with
  | some i =>
    have hi := mem_of_find?_eq_some hf
    have hp : i.components = p := by simpa using List.find?_some hf
    rw [← hp]
    exact h.files i ((hdone i).mpr hi)
  | none =>
    have hno : ∀ i ∈ inputs, i.components ≠ p := by
      intro i hi e
      exact List.find?_eq_none.mp hf i hi (by simpa using e)
    by_cases hd : p ≠ [] ∧ ∃ i ∈ inputs, p <+: i.components
    · obtain ⟨hne, i, hi, hp⟩ := hd
      have hway : OnWay [] i.parent p := onWay_iff.mpr
        ⟨hne, prefix_parent.mpr ⟨hp, (hno i hi).symm⟩⟩
      have hany : (inputs.any fun i => p.isPrefixOf i.components) = true :=
        any_eq_true.mpr ⟨i, hi, isPrefixOf_iff_prefix.mpr hp⟩
      simp only [hany, and_true, ne_eq, hne, not_false_eq_true, if_true]
      exact h.above i ((hdone i).mpr hi) p hway
    · have hany : ¬ (p ≠ [] ∧ (inputs.any fun i => p.isPrefixOf i.components) = true) := by
        rintro ⟨hne, hany⟩
        obtain ⟨i, hi, hp⟩ := any_eq_true.mp hany
        exact hd ⟨hne, i, hi, isPrefixOf_iff_prefix.mp hp⟩
      simp only [hany, if_false]
      by_contra hc
      rcases h.only p hc with ⟨f, hfd, e⟩ | ⟨f, hfi, hway⟩
      · exact hno f ((hdone f).mp hfd) e.symm
      · obtain ⟨hne, hp⟩ := onWay_iff.mp hway
        exact hd ⟨hne, f, hfi, (prefix_parent.mp hp).1⟩

section RoundTrip

variable {tar : Tar β} {w : WrittenArchive β}
  {created : Nat} {sha256 : List UInt8 → Text}

theorem plain_directory (hA : Accepted tar root inputs w) {q : List Text}
    (hq : q = [] ∨ ∃ i ∈ inputs, OnWay [] i.parent q) : ∀ c ∈ q, Plain c := by
  intro c hc
  rcases hq with rfl | ⟨i, hi, hq⟩
  · cases hc
  · obtain ⟨-, hp⟩ := onWay_iff.mp hq
    exact plain_of_plainRelative (hA.plain i hi) c ((prefix_parent.mp hp).1.subset hc)

/-- The directories as lists of components. -/
theorem exists_directories (hroot : PlainRoot root) (hA : Accepted tar root inputs w) :
    ∃ Q : List (List Text), directories root (sortInputs inputs) = Q.map (dirPath root) ∧ Q.Nodup ∧
      ∀ q, q ∈ Q ↔ q = [] ∨ ∃ i ∈ inputs, OnWay [] i.parent q := by
  have hdirs : ∀ d, d ∈ directories root (sortInputs inputs) ↔
      ∃ q, (q = [] ∨ ∃ i ∈ inputs, OnWay [] i.parent q) ∧ d = dirPath root q := by
    intro d
    rw [mem_directories]
    constructor
    · rintro (h | ⟨i, hi, p, hp, h⟩)
      · exact ⟨[], .inl rfl, h⟩
      · exact ⟨p, .inr ⟨i, mem_sortInputs.mp hi, hp⟩, h⟩
    · rintro ⟨q, rfl | ⟨i, hi, hq⟩, h⟩
      · exact .inl h
      · exact .inr ⟨i, mem_sortInputs.mpr hi, q, hq, h⟩
  -- the reader's own split takes a directory's path apart
  let parts : Text → List Text := fun d => ((stripSlash d).splitOn '/').tail
  have hparts : ∀ q, (q = [] ∨ ∃ i ∈ inputs, OnWay [] i.parent q) → parts (dirPath root q) = q := by
    intro q hq
    show ((stripSlash (dirPath root q)).splitOn '/').tail = q
    rw [stripSlash_dirPath, splitOn_joined hroot (plain_directory hA hq), tail_cons]
  have hmap : directories root (sortInputs inputs) =
      ((directories root (sortInputs inputs)).map parts).map (dirPath root) := by
    rw [map_map]
    conv_lhs => rw [← map_id (directories root (sortInputs inputs))]
    refine map_congr_left fun d hd => ?_
    obtain ⟨q, hq, rfl⟩ := (hdirs d).mp hd
    show dirPath root q = dirPath root (parts (dirPath root q))
    rw [hparts q hq]
  refine ⟨(directories root (sortInputs inputs)).map parts, hmap, ?_, ?_⟩
  · refine List.Nodup.of_map (dirPath root) ?_
    rw [← hmap]
    exact nodup_directories _ _
  · intro q
    rw [mem_map]
    constructor
    · rintro ⟨d, hd, rfl⟩
      obtain ⟨q, hq, rfl⟩ := (hdirs d).mp hd
      rw [hparts q hq]
      exact hq
    · intro hq
      exact ⟨dirPath root q, (hdirs _).mpr ⟨q, hq, rfl⟩, hparts q hq⟩

variable {Q : List (List Text)}

/-- As many directories are made as there are above the files, with the root. -/
theorem length_directories (hne : inputs ≠ []) (hnd : Q.Nodup)
    (hQ : ∀ q, q ∈ Q ↔ q = [] ∨ ∃ i ∈ inputs, OnWay [] i.parent q) :
    Q.length = (inputs.flatMap fun i => i.parent.inits).dedup.length := by
  refine List.Perm.length_eq ((perm_ext_iff_of_nodup hnd (nodup_dedup _)).mpr fun q => ?_)
  rw [hQ, List.mem_dedup, mem_flatMap]
  simp only [mem_inits]
  constructor
  · rintro (rfl | ⟨i, hi, hq⟩)
    · obtain ⟨i, is, rfl⟩ := exists_cons_of_ne_nil hne
      exact ⟨i, mem_cons_self, nil_prefix⟩
    · exact ⟨i, hi, (onWay_iff.mp hq).2⟩
  · rintro ⟨i, hi, hq⟩
    by_cases h : q = []
    · exact .inl h
    · exact .inr ⟨i, hi, onWay_iff.mpr ⟨h, hq⟩⟩

/-- The entries of the archive, as the reader sees them. -/
theorem entries_archive (htar : tar.Faithful) (hroot : PlainRoot root)
    (hA : Accepted tar root inputs w)
    (hdirs : directories root (sortInputs inputs) = Q.map (dirPath root))
    (hplain : ∀ q ∈ Q, ∀ c ∈ q, Plain c) :
    tar.entries w.archive = (Q.map fun q => .ok (dirEntry (dirPath root q))) ++
      (sortInputs inputs).map fun i => .ok (fileEntry (filePath root i) i.bytes) := by
  rw [hA.archive, htar.reads, map_append, hdirs, map_map, map_map, map_map]
  · rfl
  · intro e he
    rcases mem_append.mp he with he | he
    · obtain ⟨d, hd, rfl⟩ := mem_map.mp he
      have hfit := hA.dirsFit d hd
      rw [hdirs] at hd
      obtain ⟨q, hq, rfl⟩ := mem_map.mp hd
      exact ⟨root, q, _, hroot, hplain q hq, .inr rfl, hfit, .inl rfl⟩
    · obtain ⟨i, hi, rfl⟩ := mem_map.mp he
      have hi := mem_sortInputs.mp hi
      exact ⟨root, i.components, _, hroot, plain_of_plainRelative (hA.plain i hi),
        .inl (filePath_eq root i), hA.filesFit i hi, .inr ⟨_, rfl⟩⟩

/-- After the directories, the tree is ready for the files. -/
theorem filled_start {s : Extraction} (hQ : ∀ q, q ∈ Q ↔ q = [] ∨ ∃ i ∈ is, OnWay [] i.parent q)
    (hfile : ∀ p m b, s.tree p ≠ some (.file m b))
    (htree : ∀ p, s.tree p ≠ none ↔ Tree.empty p ≠ none ∨ ∃ q ∈ Q, OnWay [] q p) :
    Filled is [] s.tree where
  files := fun _ h => by cases h
  above := fun _ h => by cases h
  dirs := by
    intro f hf p hp
    have hin : s.tree p ≠ none :=
      (htree p).mpr (.inr ⟨p, (hQ p).mpr (.inr ⟨f, hf, hp⟩),
        onWay_iff.mpr ⟨(onWay_iff.mp hp).1, prefix_refl p⟩⟩)
    obtain ⟨node, hnode⟩ := Option.ne_none_iff_exists'.mp hin
    cases node with
    | dir m => exact ⟨m, hnode⟩
    | file m b => exact absurd hnode (hfile p m b)
  only := by
    intro p hp
    rcases (htree p).mp hp with h | ⟨q, hq, hon⟩
    · exact absurd rfl h
    · obtain ⟨hne, hpq⟩ := onWay_iff.mp hon
      rcases (hQ q).mp hq with rfl | ⟨i, hi, hway⟩
      · exact absurd hon not_onWay_nil
      · exact .inr ⟨i, hi, onWay_iff.mpr ⟨hne, hpq.trans (onWay_iff.mp hway).2⟩⟩

/-- **What the reader makes of what the writer wrote.** It takes the archive exactly if the inputs
    are extractable, and then leaves the files it was made from. -/
theorem extracts_iff (htar : tar.Faithful) (hroot : PlainRoot root)
    (hA : Accepted tar root inputs w) :
    (∃ files tree, extractStrict created sha256 (tar.entries w.archive) root
      w.installedSize .empty =
        .ok (files, tree) ∧ tree = contents inputs) ↔ Extractable inputs := by
  have hlen : (sortInputs inputs).length = inputs.length := (perm_sortInputs inputs).length_eq
  obtain ⟨Q, hdirs, hQnd, hQ⟩ := exists_directories hroot hA
  have hQplain : ∀ q ∈ Q, ∀ c ∈ q, Plain c := fun q hq => plain_directory hA ((hQ q).mp hq)
  have hQfit : ∀ q ∈ Q, (∀ c ∈ q, Plain c) ∧ byteLen (dirPath root q) ≤ maxPathBytes := by
    intro q hq
    have hfit := htar.fits _ (hA.dirsFit (dirPath root q) (hdirs ▸ mem_map_of_mem hq))
    exact ⟨hQplain q hq, Nat.le_trans hfit (by decide)⟩
  have hfit : ∀ f ∈ sortInputs inputs, (∀ c ∈ f.components, Plain c) ∧
      byteLen (filePath root f) ≤ maxPathBytes := by
    intro f hf
    have hf := mem_sortInputs.mp hf
    exact ⟨plain_of_plainRelative (hA.plain f hf),
      Nat.le_trans (htar.fits _ (hA.filesFit f hf)) (by decide)⟩
  -- the run over the directories, whenever there are not too many
  have hstart : Q.length ≤ maxEntries → ∃ s, extractEntries created sha256 root w.installedSize
      (.start .empty) (Q.map fun q => .ok (dirEntry (dirPath root q))) = .ok s ∧
      s.entries = Q.length ∧ s.totalPayload = 0 ∧ s.files = [] ∧
      (∀ p ∈ s.seenPaths, ∃ q ∈ Q, p = dirPath root q) ∧ Filled inputs [] s.tree := by
    intro hcount
    obtain ⟨s, hrun, hent, htot, hfiles, hseen, hnofile, htree⟩ :=
      @extract_dirs created sha256 root w.installedSize hroot Q (.start .empty) hQfit hQnd
        (fun _ _ h => by cases h) (fun _ _ _ h => by cases h)
        (by simpa [Extraction.start] using hcount)
    refine ⟨s, hrun, by simpa [Extraction.start] using hent, htot, hfiles, ?_,
      filled_start hQ hnofile htree⟩
    intro p hp
    rcases hseen p hp with h | h
    · cases h
    · exact h
  unfold extractStrict
  rw [entries_archive htar hroot hA hdirs hQplain]
  simp only [bind_ok, ite_error_ok, pure_ok, ne_eq, not_not, List.isEmpty_iff]
  constructor
  · rintro ⟨files, tree, ⟨s', hrun, -, hnonempty, -⟩, -⟩
    have hcount := entries_extractEntries hrun (by
      obtain ⟨q, hq⟩ : ∃ q, q ∈ Q := ⟨[], (hQ []).mpr (.inl rfl)⟩
      simp [ne_nil_of_mem hq])
    simp only [Extraction.start, length_append, length_map, hlen, Nat.zero_add] at hcount
    obtain ⟨s, hs, hent, htot, hfiles, hseen, hF⟩ := hstart (by omega)
    obtain ⟨s₁, hs₁, hrest⟩ := extractEntries_append.mp hrun
    rw [hs] at hs₁
    cases hs₁
    have hne : inputs ≠ [] := by
      rintro rfl
      have hnil : sortInputs [] = [] := rfl
      rw [hnil] at hrest
      cases hrest
      exact hnonempty hfiles
    refine ⟨hne, apart_iff.mp fun f hf g hg hway => ?_, ?_⟩
    · -- the directory another file needs is already there
      obtain ⟨m, hd⟩ := hF.dirs g hg _ hway
      rw [extract_blocked hroot hfit hrest f (mem_sortInputs.mpr hf)] at hd
      cases hd
    · rw [← length_directories hne hQnd hQ]
      exact hcount
  · intro hE
    have hcount := hE.few
    rw [← length_directories hE.filled hQnd hQ] at hcount
    obtain ⟨s, hs, hent, htot, hfiles, hseen, hF⟩ := hstart (by omega)
    have hsorted : (sortInputs inputs).Pairwise fun f g => f.components ≠ g.components :=
      hA.sorted.imp fun h e => ne_of_lt h (relativePath_inj e)
    have hfresh : ∀ f ∈ sortInputs inputs, filePath root f ∉ s.seenPaths := by
      intro f hf h
      obtain ⟨q, -, e⟩ := hseen _ h
      rw [filePath_eq] at e
      exact joined_ne_dirPath hroot (hfit f hf).1 e
    obtain ⟨s', hs', htot', hfiles', hF'⟩ :=
      @extract_files created sha256 root w.installedSize inputs (sortInputs inputs) hroot
        (apart_iff.mpr hE.apart) [] s
        (fun f hf => ⟨mem_sortInputs.mp hf, (hfit f hf).1, (hfit f hf).2, hfresh f hf⟩)
        (fun _ h => by cases h) hsorted hF (by omega)
        (by rw [htot, Nat.zero_add, hA.installed]) hA.bound
    refine ⟨_, _, ⟨s', extractEntries_append.mpr ⟨s, hs, hs'⟩, ?_, ?_, rfl⟩, ?_⟩
    · rw [htot', htot, Nat.zero_add, hA.installed]
    · rw [hfiles', hfiles, nil_append, map_eq_nil_iff]
      intro h
      exact hE.filled (length_eq_zero_iff.mp (by rw [← hlen, h]; rfl))
    · refine hF'.eq_contents fun f => ?_
      rw [append_nil, mem_reverse]
      exact mem_sortInputs

/-- **Round trip.** An archive that was written comes back, file by file and byte by byte, exactly
    if the inputs are extractable; and its bytes, digest and sizes do not depend on their order. -/
theorem roundTrip_iff (htar : tar.Faithful) (hroot : PlainRoot root)
    (h : writeDeterministic tar root inputs = .ok w) :
    ((∃ files tree, extractStrict created sha256
      (tar.entries w.archive) root w.installedSize .empty =
        .ok (files, tree) ∧ tree = contents inputs) ↔ Extractable inputs) ∧
      ∀ inputs' : List ArchiveInput, inputs'.Perm inputs →
        writeDeterministic tar root inputs' = .ok w := by
  have hA := writeDeterministic_ok h
  exact ⟨extracts_iff htar hroot hA, fun inputs' hp => (writeDeterministic_perm hA hp).trans h⟩

end RoundTrip

/-! ### Two lists of files -/

/-- A tar library that keeps the entries as they are. -/
def plainTar : Tar (List Entry) where
  setPath := fun p => if byteLen p ≤ 100 then .ok () else .error "too long".toList
  build := id
  entries := fun es => es.map .ok
  size := fun es => 1024 + (es.map fun e => 512 + e.payload.length).sum
  sha256 := fun _ => []

theorem plainTar_faithful : plainTar.Faithful where
  fits := by
    intro path h
    simp only [plainTar] at h
    split at h
    · omega
    · cases h
  reads := fun _ _ => rfl

def modelInputs : List ArchiveInput :=
  [⟨"onnx/model.onnx".toList, "/src/model.onnx".toList, .regular [7, 7, 7]⟩,
    ⟨"hub.json".toList, "/src/hub.json".toList, .regular [1, 2]⟩]

theorem plainRoot_m : PlainRoot "m".toList := by
  constructor <;> decide

theorem modelInputs_roundTrip : ∃ w, writeDeterministic plainTar "m".toList modelInputs = .ok w ∧
    ∃ files tree, extractStrict 0o700 (fun _ => []) (plainTar.entries w.archive) "m".toList
      w.installedSize .empty = .ok (files, tree) ∧ tree = contents modelInputs := by
  have hE : Extractable modelInputs := ⟨by decide, by decide, by decide⟩
  refine ⟨_, rfl, ?_⟩
  exact (roundTrip_iff plainTar_faithful plainRoot_m rfl).1.mpr hE

/-- `a` is a file, and the directory of `a/b`. -/
def nestedInputs : List ArchiveInput :=
  [⟨"a".toList, "/src/a".toList, .regular [1]⟩, ⟨"a/b".toList, "/src/b".toList, .regular [2]⟩]

/-- The writer takes a file that is also a directory, and a list without files; the reader refuses
    both archives. -/
theorem nested_refused :
    (∃ w, writeDeterministic plainTar "m".toList nestedInputs = .ok w ∧
      extractStrict 0o700 (fun _ => []) (plainTar.entries w.archive) "m".toList w.installedSize
        .empty = .error (.createFile ["a".toList] .present)) ∧
    ∃ w, writeDeterministic plainTar "m".toList [] = .ok w ∧
      extractStrict 0o700 (fun _ => []) (plainTar.entries w.archive) "m".toList w.installedSize
        .empty = .error .noFiles := by
  refine ⟨⟨_, rfl, ?_⟩, ⟨_, rfl, ?_⟩⟩
  · rfl
  · rfl

end Postvec.Registry.Archive
