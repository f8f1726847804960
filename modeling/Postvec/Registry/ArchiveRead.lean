import Postvec.Lib.Checks
import Postvec.Registry.Archive

/-!
# What the strict reader does with plain entries

A plain path is a root and components that both sides take, joined with slashes; a directory's ends
in one more. For entries with plain paths this file says when the reader takes them and what it
leaves on disk: `extract_dirs`, `extract_files` for a run over directories, then files (`Filled`),
and `extract_blocked` for a file where something is already.
-/

namespace Postvec.Registry.Archive

open Machine List

/-! ## 1. Plain paths -/

/-- A component both sides take. -/
structure Plain (c : Text) : Prop where
  filled : c ≠ []
  dot : c ≠ ".".toList
  dots : c ≠ "..".toList
  short : byteLen c ≤ maxComponentBytes
  slash : '/' ∉ c
  backslash : '\\' ∉ c
  control : ∀ x ∈ c, isControl x = false

/-- A name that can be the root of an archive. -/
structure PlainRoot (root : Text) : Prop where
  filled : root ≠ []
  dot : root ≠ ".".toList
  dots : root ≠ "..".toList
  slash : '/' ∉ root
  backslash : '\\' ∉ root
  nul : Char.ofNat 0 ∉ root

def joined (cs : List Text) : Text := ['/'].intercalate cs

/-- The path of a directory below `root`. -/
def dirPath (root : Text) (cs : List Text) : Text := joined (root :: cs) ++ ['/']

theorem joined_cons (c : Text) (cs : List Text) :
    joined (c :: cs) = c ++ cs.flatMap ('/' :: ·) := by
  induction cs generalizing c with
  | nil => simp [joined]
  | cons d ds ih =>
    have h := ih d
    unfold joined at h ⊢
    rw [intercalate_cons_cons, h]
    simp

theorem mem_joined {x : Char} {cs : List Text} (h : x ∈ joined cs) : x = '/' ∨ ∃ c ∈ cs, x ∈ c := by
  cases cs with
  | nil => cases h
  | cons c cs =>
    rw [joined_cons, mem_append, mem_flatMap] at h
    rcases h with h | ⟨d, hd, h⟩
    · exact .inr ⟨c, mem_cons_self, h⟩
    · rcases mem_cons.mp h with rfl | h
      · exact .inl rfl
      · exact .inr ⟨d, mem_cons_of_mem _ hd, h⟩

variable {cs : List Text}

/-- What is joined ends in no slash. -/
theorem getLast?_joined : ∀ {c : Text}, (∀ d ∈ c :: cs, d ≠ [] ∧ '/' ∉ d) →
    ∃ x, (joined (c :: cs)).getLast? = some x ∧ x ≠ '/' := by
  induction cs with
  | nil =>
    intro c h
    obtain ⟨hne, hs⟩ := h c mem_cons_self
    have hj : joined [c] = c := by simp [joined]
    rw [hj, List.getLast?_eq_some_getLast hne]
    exact ⟨_, rfl, fun e => hs (e ▸ getLast_mem hne)⟩
  | cons d ds ih =>
    intro c h
    obtain ⟨x, hx, hne⟩ := ih fun e he => h e (mem_cons_of_mem _ he)
    refine ⟨x, ?_, hne⟩
    unfold joined at hx ⊢
    rw [intercalate_cons_cons, List.getLast?_append, hx]
    rfl

section Validate

variable {root : Text} {q : List Text} {path : Text}

theorem stripSlash_dirPath : stripSlash (dirPath root cs) = joined (root :: cs) := by
  unfold stripSlash dirPath
  rw [List.getLast?_concat, if_pos rfl, dropLast_concat]

theorem checkComponents_plain (hcs : ∀ c ∈ cs, Plain c) :
    checkComponents path cs = .ok () := by
  induction cs with
  | nil => rfl
  | cons c cs ih =>
    obtain ⟨hc, hcs⟩ := forall_mem_cons.mp hcs
    have hctl : c.any isControl = false := by simpa using hc.control
    have hone : checkComponent path c = .ok () := by
      unfold checkComponent
      rw [if_neg, if_neg (Nat.not_lt.mpr hc.short), hctl, if_neg (by simp)]
      simp only [Bool.or_eq_true, List.isEmpty_iff, beq_iff_eq, not_or]
      exact ⟨⟨hc.filled, hc.dot⟩, hc.dots⟩
    unfold checkComponents
    rw [check_ok]
    exact ⟨hone, ih hcs⟩

variable (hroot : PlainRoot root) (hcs : ∀ c ∈ cs, Plain c)
include hroot hcs

theorem filled_of_plain :
    ∀ d ∈ root :: cs, d ≠ [] ∧ '/' ∉ d :=
  forall_mem_cons.mpr ⟨⟨hroot.filled, hroot.slash⟩,
    fun c hc => ⟨(hcs c hc).filled, (hcs c hc).slash⟩⟩

theorem stripSlash_joined :
    stripSlash (joined (root :: cs)) = joined (root :: cs) := by
  obtain ⟨x, hx, hne⟩ := getLast?_joined (filled_of_plain hroot hcs)
  unfold stripSlash
  rw [hx, if_neg]
  exact fun e => hne (Option.some.inj e)

theorem splitOn_joined :
    (joined (root :: cs)).splitOn '/' = root :: cs := by
  unfold joined
  exact splitOn_intercalate _ (fun d hd => (filled_of_plain hroot hcs d hd).2) (cons_ne_nil _ _)

omit hcs in
theorem joined_inj {r : List Text} (hq : ∀ c ∈ q, Plain c)
    (hr : ∀ c ∈ r, Plain c) (h : joined (root :: q) = joined (root :: r)) : q = r := by
  have hs := congrArg (List.splitOn '/') h
  rw [splitOn_joined hroot hq, splitOn_joined hroot hr] at hs
  exact (List.cons.inj hs).2

/-- A file's path is no directory's. -/
theorem joined_ne_dirPath :
    joined (root :: cs) ≠ dirPath root q := by
  obtain ⟨x, hx, hne⟩ := getLast?_joined (filled_of_plain hroot hcs)
  intro e
  rw [e, dirPath, List.getLast?_concat] at hx
  exact hne (Option.some.inj hx).symm

/-- The characters of a plain path. -/
theorem mem_plain {x : Char} (h : x ∈ joined (root :: cs) ∨ x ∈ dirPath root cs) :
    x ≠ '\\' ∧ x ≠ Char.ofNat 0 := by
  have hx : x = '/' ∨ ∃ c ∈ root :: cs, x ∈ c := by
    rcases h with h | h
    · exact mem_joined h
    · rcases mem_append.mp h with h | h
      · exact mem_joined h
      · exact .inl (mem_singleton.mp h)
  rcases hx with rfl | ⟨c, hc, hx⟩
  · decide
  · rcases mem_cons.mp hc with rfl | hc
    · exact ⟨fun e => hroot.backslash (e ▸ hx), fun e => hroot.nul (e ▸ hx)⟩
    · refine ⟨fun e => (hcs c hc).backslash (e ▸ hx), fun e => ?_⟩
      have := (hcs c hc).control x hx
      rw [e] at this
      revert this
      decide

/-- **The reader finds the components of a plain path again.** -/
theorem validateEntryPath_plain (hpath : path = joined (root :: cs) ∨ path = dirPath root cs)
    (hlen : byteLen path ≤ maxPathBytes) : validateEntryPath path root = .ok cs := by
  have hstrip : stripSlash path = joined (root :: cs) := by
    rcases hpath with rfl | rfl
    · exact stripSlash_joined hroot hcs
    · exact stripSlash_dirPath
  have hhead : path.head? ≠ some '/' := by
    obtain ⟨x, xs, rfl⟩ := exists_cons_of_ne_nil hroot.filled
    have hx : path.head? = some x := by
      rcases hpath with rfl | rfl <;> simp [dirPath, joined_cons]
    rw [hx]
    intro e
    exact hroot.slash (Option.some.inj e ▸ mem_cons_self)
  have hmem : ∀ x ∈ path, x ≠ '\\' ∧ x ≠ Char.ofNat 0 := by
    intro x hx
    refine mem_plain hroot hcs ?_
    rcases hpath with rfl | rfl
    · exact .inl hx
    · exact .inr hx
  have hback : path.contains '\\' = false := by
    simpa using fun h => (hmem _ h).1 rfl
  have hnul : path.contains (Char.ofNat 0) = false := by
    simpa using fun h => (hmem _ h).2 rfl
  unfold validateEntryPath
  rw [if_neg (Nat.not_lt.mpr hlen), if_neg hhead, hback, if_neg (by simp), hnul, if_neg (by simp),
    hstrip, splitOn_joined hroot hcs]
  simp only [ne_eq, not_true_eq_false, if_false, checkComponents_plain hcs]
  rfl

end Validate

/-! ## 2. Directories on the way -/

/-- `q` is on the way from `base` along `cs`. -/
def OnWay (base cs q : List Text) : Prop := ∃ r, r ≠ [] ∧ r <+: cs ∧ q = base ++ r

theorem onWay_cons {base q : List Text} {c : Text} :
    OnWay base (c :: cs) q ↔ q = base ++ [c] ∨ OnWay (base ++ [c]) cs q := by
  constructor
  · rintro ⟨r, hne, hr, rfl⟩
    cases r with
    | nil => exact absurd rfl hne
    | cons d r =>
      obtain ⟨rfl, hrest⟩ := cons_prefix_cons.mp hr
      by_cases h : r = []
      · exact .inl (by rw [h])
      · exact .inr ⟨r, h, hrest, by simp⟩
  · rintro (rfl | ⟨r, hne, hr, rfl⟩)
    · exact ⟨[c], by simp, by simp, rfl⟩
    · exact ⟨c :: r, by simp, cons_prefix_cons.mpr ⟨rfl, hr⟩, by simp⟩

theorem not_onWay_nil {base q : List Text} : ¬ OnWay base [] q := by
  rintro ⟨r, hne, hr, -⟩
  exact hne (prefix_nil.mp hr)

theorem onWay_ne {base q : List Text} (h : OnWay base cs q) : q ≠ base := by
  obtain ⟨r, hne, -, rfl⟩ := h
  simpa using hne

theorem onWay_iff {q : List Text} : OnWay [] cs q ↔ q ≠ [] ∧ q <+: cs := by
  constructor
  · rintro ⟨r, hne, hr, rfl⟩
    exact ⟨hne, hr⟩
  · rintro ⟨hne, hq⟩
    exact ⟨q, hne, hq, rfl⟩

section Trees

theorem Tree.put_self (t : Tree) (p : List Text) (node : Node) : t.put p node p = some node :=
  @Function.update_self _ (fun _ => Option Node) _ p (some node) t

variable {p q : List Text}

theorem Tree.put_of_ne (t : Tree) (h : q ≠ p) (node : Node) :
    t.put p node q = t q :=
  @Function.update_of_ne _ (fun _ => Option Node) _ _ _ h (some node) t

theorem Tree.setMode_self (t : Tree) (p : List Text) (mode : Nat) :
    t.setMode p mode p = (t p).map (Node.chmod mode) :=
  @Function.update_self _ (fun _ => Option Node) _ p _ t

theorem Tree.setMode_of_ne (t : Tree) (h : q ≠ p) (mode : Nat) :
    t.setMode p mode q = t q :=
  @Function.update_of_ne _ (fun _ => Option Node) _ _ _ h _ t

variable {created : Nat} {t t' : Tree} {base : List Text}

/-- Nothing that is there is taken away. -/
theorem createDirAll_keeps : ∀ {t : Tree} {base : List Text},
    t.createDirAll created base cs = .ok t' → ∀ {q node}, t q = some node → t' q = some node := by
  induction cs with
  | nil =>
    intro t base h q node hq
    cases h
    exact hq
  | cons c cs ih =>
    intro t base h q node hq
    unfold Tree.createDirAll at h
    split at h
    · cases h
    · exact ih h hq
    · rename_i hnone
      refine ih h ?_
      have hne : q ≠ base ++ [c] := by
        rintro rfl
        rw [hnone] at hq
        cases hq
      rw [Tree.put_of_ne t hne]
      exact hq

/-- Where no file is on the way, the directories are made and nothing else changes. -/
theorem createDirAll_ok (created : Nat) : ∀ {t : Tree} {base : List Text},
    (∀ q, OnWay base cs q → ∀ m b, t q ≠ some (.file m b)) →
    ∃ t', t.createDirAll created base cs = .ok t' ∧
      (∀ q, OnWay base cs q → ∃ m, t' q = some (.dir m)) ∧
      ∀ q, ¬ OnWay base cs q → t' q = t q := by
  induction cs with
  | nil =>
    intro t base _
    exact ⟨t, rfl, fun q h => absurd h not_onWay_nil, fun _ _ => rfl⟩
  | cons c cs ih =>
    intro t base hfile
    unfold Tree.createDirAll
    have hrest : ∀ q, OnWay (base ++ [c]) cs q → ∀ m b, t q ≠ some (.file m b) :=
      fun q h => hfile q (onWay_cons.mpr (.inr h))
    split
    · rename_i m b hc
      exact absurd hc (hfile _ (onWay_cons.mpr (.inl rfl)) m b)
    · rename_i m hc
      obtain ⟨t', hok, hon, hoff⟩ := ih hrest
      refine ⟨t', hok, fun q h => ?_, fun q h => hoff q fun h' => h (onWay_cons.mpr (.inr h'))⟩
      rcases onWay_cons.mp h with rfl | h
      · exact ⟨m, (hoff _ fun h' => onWay_ne h' rfl).trans hc⟩
      · exact hon q h
    · have hput : ∀ q, OnWay (base ++ [c]) cs q → ∀ m b,
          t.put (base ++ [c]) (.dir created) q ≠ some (.file m b) := by
        intro q h m b
        rw [Tree.put_of_ne t (onWay_ne h)]
        exact hrest q h m b
      obtain ⟨t', hok, hon, hoff⟩ := ih hput
      refine ⟨t', hok, fun q h => ?_, fun q h => ?_⟩
      · rcases onWay_cons.mp h with rfl | h
        · exact ⟨created, (hoff _ fun h' => onWay_ne h' rfl).trans (Tree.put_self t _ _)⟩
        · exact hon q h
      · rw [onWay_cons, not_or] at h
        rw [hoff q h.2, Tree.put_of_ne t h.1]

theorem normalizeDirs_off : ∀ {t : Tree} {base : List Text}, ¬ OnWay base cs q →
    t.normalizeDirs base cs q = t q := by
  induction cs with
  | nil => exact fun _ => rfl
  | cons c cs ih =>
    intro t base h
    rw [onWay_cons, not_or] at h
    unfold Tree.normalizeDirs
    rw [ih h.2, Tree.setMode_of_ne t h.1]

theorem normalizeDirs_on : ∀ {t : Tree} {base : List Text}, OnWay base cs q →
    t.normalizeDirs base cs q = (t q).map (Node.chmod 0o755) := by
  induction cs with
  | nil => exact fun h => absurd h not_onWay_nil
  | cons c cs ih =>
    intro t base h
    unfold Tree.normalizeDirs
    rcases onWay_cons.mp h with rfl | h
    · rw [normalizeDirs_off fun h' => onWay_ne h' rfl, Tree.setMode_self]
    · rw [ih h, Tree.setMode_of_ne t (onWay_ne h)]

theorem normalizeDirs_none : t.normalizeDirs base cs q = none ↔ t q = none := by
  by_cases h : OnWay base cs q
  · rw [normalizeDirs_on h, Option.map_eq_none_iff]
  · rw [normalizeDirs_off h]

end Trees

/-! ## 3. One entry -/

/-- The header the writer makes. -/
def packed (path : Text) (size mode : Nat) (kind : EntryType) : Header where
  ustar := true
  entryType := kind
  linkName := none
  path := (String.ofList path).toByteArray
  size := .ok size
  mode := mode
  uid := 0
  gid := 0
  mtime := 0

def dirEntry (path : Text) : Entry :=
  ⟨packed path 0 0o755 .directory, (String.ofList path).toByteArray, []⟩

def fileEntry (path : Text) (bytes : List UInt8) : Entry :=
  ⟨packed path bytes.length 0o644 .regular, (String.ofList path).toByteArray, bytes⟩

section Entries

variable {created : Nat} {sha256 : List UInt8 → Text} {root : Text} {installedSize : Nat}
  {s s' : Extraction} {path : Text} {rel : List Text} {bytes payload : List UInt8} {e : Entry}
  {size : Nat}

theorem utf8Decode_packed (path : Text) :
    (String.ofList path).toByteArray.utf8Decode? = some path.toArray := by
  rw [String.toByteArray_ofList, List.utf8Decode?_utf8Encode]

theorem entryPath_packed (hpath : path ≠ []) (hlink : e.header.linkName = none)
    (he : e.path = e.header.path) (hh : e.header.path = (String.ofList path).toByteArray) :
    entryPath e = .ok path := by
  unfold entryPath
  rw [hlink, if_neg (by simp), if_neg (not_not_intro (congrArg _ he)), he, hh, utf8Decode_packed]
  simp [hpath]

/-- The state with an entry counted. -/
def Extraction.counted (s : Extraction) (path : Text) : Extraction :=
  { s with entries := s.entries + 1, seenPaths := path :: s.seenPaths }

theorem extractEntry_ok {isDir : Bool}
    (hustar : e.header.ustar = true) (hkind : entryKind e.header.entryType = .ok isDir)
    (hpath : entryPath e = .ok path) (hrel : validateEntryPath path root = .ok rel)
    (hsize : e.header.size = .ok size) :
    extractEntry created sha256 root installedSize s (.ok e) = .ok s' ↔
      s.entries + 1 ≤ maxEntries ∧ path ∉ s.seenPaths ∧
        (if isDir then extractDir created (s.counted path) path rel size
          else extractFile created sha256 installedSize (s.counted path) rel size e.payload) =
            .ok s' := by
  unfold extractEntry
  rw [bind_ok]
  simp only [mapError_ok, Except.ok.injEq, exists_eq_left', ite_error_ok, bind_ok, hkind, hpath,
    hrel, hsize, hustar, Nat.not_lt, Bool.not_true, Bool.false_eq_true, not_false_eq_true, true_and]
  rfl

theorem extractEntry_dir (hpath : path ≠ []) (hrel : validateEntryPath path root = .ok rel) :
    extractEntry created sha256 root installedSize s (.ok (dirEntry path)) = .ok s' ↔
      s.entries + 1 ≤ maxEntries ∧ path ∉ s.seenPaths ∧
        extractDir created (s.counted path) path rel 0 = .ok s' := by
  have hkind : entryKind (dirEntry path).header.entryType = .ok true := rfl
  have hp : entryPath (dirEntry path) = .ok path := entryPath_packed hpath rfl rfl rfl
  rw [extractEntry_ok rfl hkind hp hrel rfl, if_pos rfl]

theorem extractEntry_file (hpath : path ≠ []) (hrel : validateEntryPath path root = .ok rel) :
    extractEntry created sha256 root installedSize s (.ok (fileEntry path bytes)) = .ok s' ↔
      s.entries + 1 ≤ maxEntries ∧ path ∉ s.seenPaths ∧
        extractFile created sha256 installedSize (s.counted path) rel bytes.length bytes =
        .ok s' := by
  have hkind : entryKind (fileEntry path bytes).header.entryType = .ok false := rfl
  have hp : entryPath (fileEntry path bytes) = .ok path := entryPath_packed hpath rfl rfl rfl
  rw [extractEntry_ok rfl hkind hp hrel rfl, if_neg Bool.false_ne_true]
  rfl

/-- A directory is made with what is above it. -/
theorem extractDir_ok (created : Nat) (path : Text) (rel : List Text)
    (hfile : ∀ q m b, s.tree q ≠ some (.file m b)) :
    ∃ t, extractDir created s path rel 0 = .ok { s with tree := t } ∧
      (∀ q m b, t q ≠ some (.file m b)) ∧
      ∀ q, t q ≠ none ↔ s.tree q ≠ none ∨ OnWay [] rel q := by
  unfold extractDir
  rw [if_neg (by simp)]
  by_cases hrel : rel = []
  · subst hrel
    refine ⟨s.tree, rfl, hfile, fun q => ⟨.inl, ?_⟩⟩
    rintro (h | h)
    · exact h
    · exact absurd h not_onWay_nil
  · have hway : ∀ q, OnWay [] rel q → ∀ m b, s.tree q ≠ some (.file m b) := fun q _ => hfile q
    obtain ⟨t, hok, hon, hoff⟩ := createDirAll_ok created hway
    have hmode : ∀ q, (t.setMode rel 0o755 q = none ↔ t q = none) ∧
        ∀ m b, t.setMode rel 0o755 q = some (.file m b) → ∃ m', t q = some (.file m' b) := by
      intro q
      by_cases e : q = rel
      · rw [e, Tree.setMode_self]
        cases t rel with
        | none => simp
        | some node => cases node <;> simp [Node.chmod]
      · rw [Tree.setMode_of_ne t e]
        exact ⟨Iff.rfl, fun m b h => ⟨m, h⟩⟩
    refine ⟨t.setMode rel 0o755, ?_, ?_, ?_⟩
    · rw [if_neg (by simpa using hrel), hok]
      rfl
    · intro q m b h
      obtain ⟨m', h⟩ := (hmode q).2 m b h
      by_cases hq : OnWay [] rel q
      · obtain ⟨m'', hd⟩ := hon q hq
        rw [hd] at h
        cases h
      · rw [hoff q hq] at h
        exact hfile q m' b h
    · intro q
      rw [ne_eq, (hmode q).1]
      by_cases hq : OnWay [] rel q
      · obtain ⟨m, hd⟩ := hon q hq
        simp [hd, hq]
      · rw [hoff q hq]
        simp [hq]

/-- What writing a file took and left. -/
theorem extractFile_ok :
    extractFile created sha256 installedSize s rel size payload = .ok s' ↔
      rel ≠ [] ∧ s.totalPayload + size < 2 ^ 64 ∧ s.totalPayload + size ≤ installedSize ∧
      payload.length = size ∧ ∃ t, s.tree.createDirAll created [] rel.dropLast = .ok t ∧
        t rel = none ∧ s' = { s with
          totalPayload := s.totalPayload + size
          files := s.files ++ [⟨rel, size, sha256 payload⟩]
          tree := ((t.normalizeDirs [] rel.dropLast).put rel (.file created payload)).setMode rel
            0o644 } := by
  have hnew : ∀ {t t' : Tree}, (t.normalizeDirs [] rel.dropLast).createNew created rel payload =
      .ok t' ↔ t rel = none ∧
        t' = (t.normalizeDirs [] rel.dropLast).put rel (.file created payload) := by
    intro t t'
    unfold Tree.createNew
    have hn : t.normalizeDirs [] rel.dropLast rel = none ↔ t rel = none := normalizeDirs_none
    rw [← hn]
    split
    · rename_i h
      simp [h]
    · rename_i h
      simp [h, eq_comm]
  unfold extractFile checkedAdd
  rw [ite_error_ok]
  by_cases hlt : s.totalPayload + size < 2 ^ 64
  · simp only [hlt, if_true, ite_error_ok, bind_ok, mapError_ok, hnew, List.isEmpty_iff,
      Nat.not_lt, pure_ok, true_and]
    constructor
    · rintro ⟨hrel, hle, t, ht, _, ⟨hnone, rfl⟩, -, hlen, rfl⟩
      exact ⟨hrel, hle, by simpa using hlen, t, ht, hnone, rfl⟩
    · rintro ⟨hrel, hle, hlen, t, ht, hnone, rfl⟩
      exact ⟨hrel, hle, t, ht, _, ⟨hnone, rfl⟩, Nat.le_of_eq hlen, by simpa using hlen, rfl⟩
  · simp only [hlt, if_false, reduceCtorEq, and_false, false_and]

end Entries

/-! ## 4. A run over the entries -/

section Runs

variable {created : Nat} {sha256 : List UInt8 → Text} {root : Text} {installedSize : Nat}
  {s s' : Extraction} {xs : List (Except Text Entry)}

theorem extractEntries_append {ys : List (Except Text Entry)} : ∀ {s : Extraction},
    extractEntries created sha256 root installedSize s (xs ++ ys) = .ok s' ↔
      ∃ s₁, extractEntries created sha256 root installedSize s xs = .ok s₁ ∧
        extractEntries created sha256 root installedSize s₁ ys = .ok s' := by
  induction xs with
  | nil =>
    intro s
    simp [extractEntries]
  | cons x xs ih =>
    intro s
    simp only [cons_append, extractEntries, bind_ok, ih]
    constructor
    · rintro ⟨s₂, h₂, s₁, h₁, h⟩
      exact ⟨s₁, ⟨s₂, h₂, h₁⟩, h⟩
    · rintro ⟨s₁, ⟨s₂, h₂, h₁⟩, h⟩
      exact ⟨s₂, h₂, s₁, h₁, h⟩

/-- An entry that is taken is counted. -/
theorem entries_extractEntry {x : Except Text Entry}
    (h : extractEntry created sha256 root installedSize s x = .ok s') :
    s'.entries = s.entries + 1 ∧ s.entries + 1 ≤ maxEntries := by
  unfold extractEntry at h
  simp only [bind_ok, mapError_ok, ite_error_ok, Nat.not_lt] at h
  obtain ⟨e, -, hle, -, isDir, -, path, -, rel, -, -, size, -, h⟩ := h
  refine ⟨?_, hle⟩
  split at h
  · unfold extractDir at h
    simp only [ite_error_ok] at h
    split at h
    · rw [← Except.ok.inj h.2]
    · simp only [bind_ok, pure_ok] at h
      obtain ⟨-, t, -, rfl⟩ := h
      rfl
  · obtain ⟨-, -, -, -, t, -, -, rfl⟩ := extractFile_ok.mp h
    rfl

/-- A run takes no more entries than the limit. -/
theorem entries_extractEntries : ∀ {s : Extraction},
    extractEntries created sha256 root installedSize s xs = .ok s' → xs ≠ [] →
    s.entries + xs.length ≤ maxEntries := by
  induction xs with
  | nil => exact fun _ h => absurd rfl h
  | cons x xs ih =>
    intro s h _
    simp only [extractEntries, bind_ok] at h
    obtain ⟨s₁, h₁, h⟩ := h
    obtain ⟨hcount, hle⟩ := entries_extractEntry h₁
    by_cases hxs : xs = []
    · rw [hxs]
      exact hle
    · have := ih h hxs
      rw [length_cons]
      omega

theorem dirPath_ne_nil : dirPath root cs ≠ [] := by simp [dirPath]

/-- **Directories.** They are all made, with what is above them, and nothing else is. -/
theorem extract_dirs (hroot : PlainRoot root) {Q : List (List Text)} : ∀ {s : Extraction},
    (∀ q ∈ Q, (∀ c ∈ q, Plain c) ∧ byteLen (dirPath root q) ≤ maxPathBytes) → Q.Nodup →
    (∀ q ∈ Q, dirPath root q ∉ s.seenPaths) → (∀ p m b, s.tree p ≠ some (.file m b)) →
    s.entries + Q.length ≤ maxEntries →
    ∃ s', extractEntries created sha256 root installedSize s
        (Q.map fun q => .ok (dirEntry (dirPath root q))) = .ok s' ∧
      s'.entries = s.entries + Q.length ∧ s'.totalPayload = s.totalPayload ∧ s'.files = s.files ∧
      (∀ p ∈ s'.seenPaths, p ∈ s.seenPaths ∨ ∃ q ∈ Q, p = dirPath root q) ∧
      (∀ p m b, s'.tree p ≠ some (.file m b)) ∧
      ∀ p, s'.tree p ≠ none ↔ s.tree p ≠ none ∨ ∃ q ∈ Q, OnWay [] q p := by
  induction Q with
  | nil =>
    intro s _ _ _ hfile _
    exact ⟨s, rfl, rfl, rfl, rfl, fun p hp => .inl hp, hfile, by simp⟩
  | cons q Q ih =>
    intro s hQ hnd hseen hfile hcount
    obtain ⟨⟨hq, hlen⟩, hQ⟩ := forall_mem_cons.mp hQ
    obtain ⟨hqs, hseen⟩ := forall_mem_cons.mp hseen
    obtain ⟨hqQ, hnd⟩ := nodup_cons.mp hnd
    rw [length_cons] at hcount
    have hvalid := validateEntryPath_plain hroot hq (.inr rfl) hlen
    obtain ⟨t, hdir, htfile, ht⟩ :=
      extractDir_ok (s := s.counted (dirPath root q)) created (dirPath root q) q hfile
    have hfirst : extractEntry created sha256 root installedSize s
      (.ok (dirEntry (dirPath root q))) =
        .ok { s.counted (dirPath root q) with tree := t } :=
      (extractEntry_dir dirPath_ne_nil hvalid).mpr ⟨by omega, hqs, hdir⟩
    have hfresh : ∀ r ∈ Q, dirPath root r ∉ dirPath root q :: s.seenPaths := by
      intro r hr h
      rcases mem_cons.mp h with e | h
      · exact hqQ (joined_inj hroot (hQ r hr).1 hq (append_cancel_right e) ▸ hr)
      · exact hseen r hr h
    obtain ⟨s', hrun, hent, htot, hfiles, hseen', hfile', htree⟩ :=
      ih (s := { s.counted (dirPath root q) with tree := t }) hQ hnd hfresh htfile
        (by simp only [Extraction.counted]; omega)
    refine ⟨s', ?_, ?_, htot, hfiles, ?_, hfile', ?_⟩
    · simp only [map_cons, extractEntries, bind_ok]
      exact ⟨_, hfirst, hrun⟩
    · rw [hent, length_cons]
      simp only [Extraction.counted]
      omega
    · intro p hp
      rcases hseen' p hp with h | ⟨r, hr, e⟩
      · rcases mem_cons.mp h with e | h
        · exact .inr ⟨q, mem_cons_self, e⟩
        · exact .inl h
      · exact .inr ⟨r, mem_cons_of_mem _ hr, e⟩
    · intro p
      rw [htree p, ht p]
      simp only [Extraction.counted, mem_cons, exists_eq_or_imp, or_assoc]

end Runs

/-! ## 5. Files -/

def ArchiveInput.components (i : ArchiveInput) : List Text := i.relativePath.splitOn '/'

/-- The directory a file is in. -/
def ArchiveInput.parent (i : ArchiveInput) : List Text := i.components.dropLast

def ArchiveInput.bytes (i : ArchiveInput) : List UInt8 :=
  match i.source with
  | .regular bytes => bytes
  | _ => []

def filePath (root : Text) (i : ArchiveInput) : Text := root ++ '/' :: i.relativePath

theorem components_ne_nil (i : ArchiveInput) : i.components ≠ [] := splitOn_ne_nil _ _

theorem joined_components (i : ArchiveInput) : joined i.components = i.relativePath :=
  intercalate_splitOn _

theorem filePath_eq (root : Text) (i : ArchiveInput) :
    filePath root i = joined (root :: i.components) := by
  obtain ⟨c, cs, hc⟩ := exists_cons_of_ne_nil (components_ne_nil i)
  have h := joined_components i
  rw [hc, joined_cons] at h
  rw [filePath, hc, joined_cons, ← h]
  simp

theorem relativePath_inj {i j : ArchiveInput} (h : i.components = j.components) :
    i.relativePath = j.relativePath := by
  rw [← joined_components i, h, joined_components j]

theorem not_onWay_parent (i : ArchiveInput) : ¬ OnWay [] i.parent i.components := by
  rw [onWay_iff]
  rintro ⟨hne, hp⟩
  have hlen := hp.length_le
  have hpos := length_pos_of_ne_nil hne
  rw [ArchiveInput.parent, length_dropLast] at hlen
  omega

/-- The tree while the files of `inputs` are written: those of `done` are there, in directories of
    the normalised mode; the directories of the others are there; and nothing else. -/
structure Filled (inputs done : List ArchiveInput) (t : Tree) : Prop where
  files : ∀ f ∈ done, t f.components = some (.file 0o644 f.bytes)
  above : ∀ f ∈ done, ∀ p, OnWay [] f.parent p → t p = some (.dir 0o755)
  dirs : ∀ f ∈ inputs, ∀ p, OnWay [] f.parent p → ∃ m, t p = some (.dir m)
  only : ∀ p, t p ≠ none → (∃ f ∈ done, p = f.components) ∨ ∃ f ∈ inputs, OnWay [] f.parent p

/-- No file is where another needs a directory. -/
def Apart (inputs : List ArchiveInput) : Prop :=
  ∀ f ∈ inputs, ∀ g ∈ inputs, ¬ OnWay [] g.parent f.components

section Files

variable {created : Nat} {sha256 : List UInt8 → Text} {root : Text} {installedSize : Nat}
  {inputs done : List ArchiveInput} {t : Tree} {f : ArchiveInput} {fs : List ArchiveInput}

/-- One file. -/
theorem Filled.file (created : Nat) (h : Filled inputs done t) (hapart : Apart inputs)
    (hdone : ∀ g ∈ done, g ∈ inputs)
    (hf : f ∈ inputs) (hnew : ∀ g ∈ done, g.components ≠ f.components) :
    ∃ t', t.createDirAll created [] f.parent = .ok t' ∧ t' f.components = none ∧
      Filled inputs (f :: done)
        (((t'.normalizeDirs [] f.parent).put f.components (.file created f.bytes)).setMode
          f.components 0o644) := by
  have hfree : ∀ q, OnWay [] f.parent q → ∀ m b, t q ≠ some (.file m b) := by
    intro q hq m b e
    obtain ⟨m', hd⟩ := h.dirs f hf q hq
    rw [hd] at e
    cases e
  obtain ⟨t', hok, hon, hoff⟩ := createDirAll_ok created hfree
  have hkeep : ∀ q, t' q = t q := by
    intro q
    by_cases hq : OnWay [] f.parent q
    · obtain ⟨m, hd⟩ := h.dirs f hf q hq
      rw [createDirAll_keeps hok hd, hd]
    · exact hoff q hq
  have hnone : t' f.components = none := by
    rw [hkeep]
    by_contra hc
    rcases h.only _ hc with ⟨g, hg, e⟩ | ⟨g, hg, hon⟩
    · exact hnew g hg e.symm
    · exact hapart f hf g hg hon
  refine ⟨t', hok, hnone, ?_⟩
  set u : Tree := ((t'.normalizeDirs [] f.parent).put f.components (.file created f.bytes)).setMode
    f.components 0o644 with hu
  have hself : u f.components = some (.file 0o644 f.bytes) := by
    rw [hu, Tree.setMode_self, Tree.put_self]
    rfl
  have hway : ∀ q, OnWay [] f.parent q → u q = some (.dir 0o755) := by
    intro q hq
    have hne : q ≠ f.components := fun e => not_onWay_parent f (e ▸ hq)
    obtain ⟨m, hd⟩ := hon q hq
    rw [hu, Tree.setMode_of_ne _ hne, Tree.put_of_ne _ hne, normalizeDirs_on hq, hd]
    rfl
  have hrest : ∀ q, q ≠ f.components → ¬ OnWay [] f.parent q → u q = t q := by
    intro q hne hq
    rw [hu, Tree.setMode_of_ne _ hne, Tree.put_of_ne _ hne, normalizeDirs_off hq, hkeep]
  refine ⟨?_, ?_, ?_, ?_⟩
  · intro g hg
    rcases mem_cons.mp hg with rfl | hg
    · exact hself
    · rw [hrest _ (hnew g hg) (hapart g (hdone g hg) f hf)]
      exact h.files g hg
  · intro g hg p hp
    rcases mem_cons.mp hg with rfl | hg
    · exact hway p hp
    · by_cases hpf : OnWay [] f.parent p
      · exact hway p hpf
      · have hne : p ≠ f.components := fun e => hapart f hf g (hdone g hg) (e ▸ hp)
        rw [hrest p hne hpf]
        exact h.above g hg p hp
  · intro g hg p hp
    by_cases hpf : OnWay [] f.parent p
    · exact ⟨_, hway p hpf⟩
    · have hne : p ≠ f.components := fun e => hapart f hf g hg (e ▸ hp)
      rw [hrest p hne hpf]
      exact h.dirs g hg p hp
  · intro p hp
    by_cases e : p = f.components
    · exact .inl ⟨f, mem_cons_self, e⟩
    · by_cases hpf : OnWay [] f.parent p
      · exact .inr ⟨f, hf, hpf⟩
      · rw [hrest p e hpf] at hp
        rcases h.only p hp with ⟨g, hg, e⟩ | h
        · exact .inl ⟨g, mem_cons_of_mem _ hg, e⟩
        · exact .inr h

/-- The evidence about a file. -/
def evidence (sha256 : List UInt8 → Text) (f : ArchiveInput) : ExtractedFile :=
  ⟨f.components, f.bytes.length, sha256 f.bytes⟩

/-- **Files.** Where none is in another's way they are all written. -/
theorem extract_files (hroot : PlainRoot root) (hapart : Apart inputs) :
    ∀ {done : List ArchiveInput} {s : Extraction},
    (∀ f ∈ fs, f ∈ inputs ∧ (∀ c ∈ f.components, Plain c) ∧
      byteLen (filePath root f) ≤ maxPathBytes ∧ filePath root f ∉ s.seenPaths) →
    (∀ g ∈ done, g ∈ inputs ∧ ∀ f ∈ fs, g.components ≠ f.components) →
    fs.Pairwise (fun f g => f.components ≠ g.components) →
    Filled inputs done s.tree → s.entries + fs.length ≤ maxEntries →
    s.totalPayload + (fs.map fun f => f.bytes.length).sum ≤ installedSize →
    installedSize < 2 ^ 64 →
    ∃ s', extractEntries created sha256 root installedSize s
        (fs.map fun f => .ok (fileEntry (filePath root f) f.bytes)) = .ok s' ∧
      s'.totalPayload = s.totalPayload + (fs.map fun f => f.bytes.length).sum ∧
      s'.files = s.files ++ fs.map (evidence sha256) ∧
      Filled inputs (fs.reverse ++ done) s'.tree := by
  induction fs with
  | nil =>
    intro done s _ _ _ hF _ _ _
    exact ⟨s, rfl, by simp, by simp, hF⟩
  | cons f fs ih =>
    intro done s hfs hdone hpw hF hcount hsize hbound
    obtain ⟨⟨hf, hplain, hlen, hseen⟩, hfs⟩ := forall_mem_cons.mp hfs
    obtain ⟨hfirst, hpw⟩ := pairwise_cons.mp hpw
    simp only [length_cons, map_cons, sum_cons] at hcount hsize
    obtain ⟨t', hok, hnone, hF'⟩ := hF.file created hapart (fun g hg => (hdone g hg).1)
      hf fun g hg => (hdone g hg).2 f mem_cons_self
    have hvalid : validateEntryPath (filePath root f) root = .ok f.components :=
      validateEntryPath_plain hroot hplain (.inl (filePath_eq root f)) hlen
    set s₁ : Extraction := { s.counted (filePath root f) with
      totalPayload := s.totalPayload + f.bytes.length
      files := s.files ++ [evidence sha256 f]
      tree := ((t'.normalizeDirs [] f.parent).put f.components (.file created f.bytes)).setMode
        f.components 0o644 } with hs₁
    have hfile : extractFile created sha256 installedSize (s.counted (filePath root f)) f.components
        f.bytes.length f.bytes = .ok s₁ := by
      refine extractFile_ok.mpr ⟨components_ne_nil f, ?_, ?_, rfl, t', hok, hnone, rfl⟩
      · simp only [Extraction.counted]
        omega
      · simp only [Extraction.counted]
        omega
    have hstep : extractEntry created sha256 root installedSize s
        (.ok (fileEntry (filePath root f) f.bytes)) = .ok s₁ :=
      (extractEntry_file (by simp [filePath]) hvalid).mpr ⟨by omega, hseen, hfile⟩
    have hdone' : ∀ g ∈ f :: done, g ∈ inputs ∧ ∀ h ∈ fs, g.components ≠ h.components := by
      intro g hg
      rcases mem_cons.mp hg with rfl | hg
      · exact ⟨hf, hfirst⟩
      · exact ⟨(hdone g hg).1, fun h hh => (hdone g hg).2 h (mem_cons_of_mem _ hh)⟩
    have hfs' : ∀ g ∈ fs, g ∈ inputs ∧ (∀ c ∈ g.components, Plain c) ∧
        byteLen (filePath root g) ≤ maxPathBytes ∧
        filePath root g ∉ filePath root f :: s.seenPaths := by
      intro g hg
      obtain ⟨hin, hpl, hl, hs⟩ := hfs g hg
      refine ⟨hin, hpl, hl, fun h => ?_⟩
      rcases mem_cons.mp h with e | h
      · rw [filePath_eq, filePath_eq] at e
        exact hfirst g hg (joined_inj hroot hpl hplain e).symm
      · exact hs h
    obtain ⟨s', hrun, htot, hfiles, hF''⟩ := ih (s := s₁) hfs' hdone' hpw hF'
      (by simp only [hs₁, Extraction.counted]; omega) (by simp only [hs₁]; omega) hbound
    refine ⟨s', ?_, ?_, ?_, ?_⟩
    · simp only [map_cons, extractEntries, bind_ok]
      exact ⟨_, hstep, hrun⟩
    · rw [htot]
      simp only [hs₁, map_cons, sum_cons]
      omega
    · rw [hfiles]
      simp [hs₁]
    · simpa using hF''

/-- What is on disk stays there while files are written. -/
theorem present_file {s s' : Extraction} {rel p : List Text} {size : Nat} {payload : List UInt8}
    (h : extractFile created sha256 installedSize s rel size payload = .ok s')
    (hp : s.tree p ≠ none) : s'.tree p ≠ none := by
  obtain ⟨-, -, -, -, t, ht, -, rfl⟩ := extractFile_ok.mp h
  obtain ⟨node, hnode⟩ := Option.ne_none_iff_exists'.mp hp
  have hkeep : t.normalizeDirs [] rel.dropLast p ≠ none := by
    rw [ne_eq, normalizeDirs_none, createDirAll_keeps ht hnode]
    exact Option.some_ne_none _
  show ((t.normalizeDirs [] rel.dropLast).put rel (.file created payload)).setMode rel
    0o644 p ≠ none
  by_cases e : p = rel
  · rw [e, Tree.setMode_self, Tree.put_self]
    exact Option.some_ne_none _
  · rw [Tree.setMode_of_ne _ e, Tree.put_of_ne _ e]
    exact hkeep

/-- **A file where something is already is refused.** -/
theorem extract_blocked (hroot : PlainRoot root) :
    ∀ {s s' : Extraction},
    (∀ f ∈ fs, (∀ c ∈ f.components, Plain c) ∧ byteLen (filePath root f) ≤ maxPathBytes) →
    extractEntries created sha256 root installedSize s
      (fs.map fun f => .ok (fileEntry (filePath root f) f.bytes)) = .ok s' →
    ∀ f ∈ fs, s.tree f.components = none := by
  induction fs with
  | nil => exact fun _ _ _ h => by cases h
  | cons g fs ih =>
    intro s s' hfs h f hf
    obtain ⟨⟨hplain, hlen⟩, hfs⟩ := forall_mem_cons.mp hfs
    simp only [map_cons, extractEntries, bind_ok] at h
    obtain ⟨s₁, h₁, h⟩ := h
    have hvalid : validateEntryPath (filePath root g) root = .ok g.components :=
      validateEntryPath_plain hroot hplain (.inl (filePath_eq root g)) hlen
    have hfile := ((extractEntry_file (by simp [filePath]) hvalid).mp h₁).2.2
    rcases mem_cons.mp hf with rfl | hf
    · obtain ⟨-, -, -, -, t, ht, hnone, -⟩ := extractFile_ok.mp hfile
      by_contra hc
      obtain ⟨node, hnode⟩ := Option.ne_none_iff_exists'.mp hc
      rw [createDirAll_keeps ht hnode] at hnone
      cases hnone
    · by_contra hc
      exact present_file hfile hc (ih hfs h f hf)

end Files

end Postvec.Registry.Archive
