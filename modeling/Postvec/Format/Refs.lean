import Postvec.Format.Parse

/-!
# Format templates: the database's scanner, and its agreement with the worker's parser

`postvec._refs` and `postvec._format` check a template when `enable()` or `set_format()` stores it,
and `postvec._enqueue` asks `_refs` again for the columns whose change enqueues a job. The worker
reads the stored template with `parse_format`, in `referenced_columns` (`entry`) and in the two
render expressions.

* `refsLoop_reads` and `reads_refsLoop`: `_refs` accepts exactly the texts the grammar reads, up to
  its length limit, and answers the columns of the reading;
* `templateCheck_agrees_iff`: the two sides agree on a template exactly when it does not name more
  than 64 distinct columns. `parse_format` has that limit, `_refs` does not
  (`manyColumns_quarantines`).

The database is taken to be UTF-8, so that `octet_length` is `byteLen` and `substr` counts
characters. The catalog lookup of `_format` is the parameter `supported`.
-/

namespace Postvec

open List Option

/-! ## 1. `postvec._refs` and `postvec._format` -/

/-- The regular expression `^[A-Za-z_]$`. -/
def pgNameStart (c : Char) : Bool :=
  ('A' ≤ c && c ≤ 'Z') || ('a' ≤ c && c ≤ 'z') || c == '_'

/-- The regular expression `^[A-Za-z0-9_]$`. -/
def pgNameChar (c : Char) : Bool :=
  ('A' ≤ c && c ≤ 'Z') || ('a' ≤ c && c ≤ 'z') || ('0' ≤ c && c ≤ '9') || c == '_'

theorem pgNameStart_eq : pgNameStart = isNameStart := by
  funext c
  unfold pgNameStart isNameStart Char.isAlpha Char.isUpper Char.isLower
  simp [Char.le_def]

theorem pgNameChar_eq : pgNameChar = isNameChar := by
  funext c
  unfold pgNameChar isNameChar Char.isAlphanum Char.isAlpha Char.isUpper Char.isLower Char.isDigit
  simp [Char.le_def]

/-- The loop inside `${...}`. In the scanner a doubled brace falls through to `name:=name||c`. -/
def refsBrace (name : Text) : Text → Option (Text × Text)
  | [] => none
  | c :: cs =>
    if c = '}' then
      match cs with
      | '}' :: cs' => refsBrace (name ++ [c]) cs'
      | _ => some (name, cs)
    else refsBrace (name ++ [c]) cs

theorem refsBrace_length {cs name n rest : Text} (h : refsBrace name cs = some (n, rest)) :
    rest.length < cs.length := by
  fun_induction refsBrace name cs with
  | case1 => simp at h
  | case2 name cs' ih =>
    have := ih h
    simp only [length_cons]
    omega
  | case3 name cs hcs =>
    simp only [Option.some.injEq, Prod.mk.injEq] at h
    simp [h.2]
  | case4 name c cs hc ih =>
    have := ih h
    simp only [length_cons]
    omega

/-- The scanner's main loop; `t` is the template from index `i` on. -/
def refsLoop (refs : List Text) (t : Text) : Except String (List Text) :=
  match t with
  | [] => .ok refs
  | c :: cs =>
    if c ≠ '$' then refsLoop refs cs
    else
      match cs with
      | [] => .error "invalid format reference"
      | c :: cs' =>
        if c = '$' then refsLoop refs cs'
        else if c = '{' then
          match _h : refsBrace [] cs' with
          | none => .error "unclosed format reference"
          | some (name, rest) =>
            if name = [] then .error "empty format reference"
            else refsLoop (addRef refs name) rest
        else if pgNameStart c then
          let name := (c :: cs').takeWhile pgNameChar
          if name = [] then .error "empty format reference"
          else refsLoop (addRef refs name) ((c :: cs').dropWhile pgNameChar)
        else .error "invalid format reference"
termination_by t.length
decreasing_by
  · simp
  · simp only [length_cons]
    omega
  · have := refsBrace_length _h
    simp only [length_cons]
    omega
  · have := length_dropWhile_le pgNameChar (c :: cs')
    simp only [length_cons] at this ⊢
    omega

/-- `postvec._refs(template)`. -/
def refs : Option Text → Except String (List Text)
  | none => .ok []
  | some t =>
    if 1 ≤ byteLen t ∧ byteLen t ≤ 16384 then refsLoop [] t
    else .error "invalid format length"

def chunkName : Text := ['c', 'h', 'u', 'n', 'k']

/-- The `FOREACH name IN ARRAY refs` loop of `_format`: the first column the relation lacks. -/
def unsupported (supported : Text → Bool) (chunked : Bool) : List Text → Option Text
  | [] => none
  | n :: ns =>
    if chunked = true ∧ n = chunkName then unsupported supported chunked ns
    else if supported n then unsupported supported chunked ns
    else some n

theorem unsupported_eq_none {supported : Text → Bool} {chunked : Bool} : ∀ {ns : List Text},
    (∀ n ∈ ns, supported n = true) → unsupported supported chunked ns = none
  | [], _ => rfl
  | n :: ns, h => by
    have ih : unsupported supported chunked ns = none :=
      unsupported_eq_none (fun m hm => h m (mem_cons_of_mem n hm))
    unfold unsupported
    rw [ih, if_pos (h n mem_cons_self), ite_self]

/-- `postvec._format(relation, template, source_column, chunked)`; `supported` says which columns
    the relation has with a type a template may name. -/
def formatCheck (supported : Text → Bool) (template : Option Text) (sourceColumn : Text)
    (chunked : Bool) : Except String Unit :=
  match template with
  | none => .ok ()
  | some t =>
    match refs (some t) with
    | .error e => .error e
    | .ok rs =>
      match unsupported supported chunked rs with
      | some n => .error ("unsupported format column " ++ String.ofList n)
      | none =>
        if (if chunked then chunkName else sourceColumn) ∈ rs then .ok ()
        else .error ("format must reference " ++
          (if chunked then "$chunk" else String.ofList sourceColumn))

/-! ## 2. A stored entry -/

/-- The registry fields the template checks read. -/
structure RegistryEntry where
  sourceColumn : Text
  pkColumns : List Text
  pkTypes : List Text
  format : Option Text
  recursive : Bool
deriving DecidableEq, Repr

/-- The columns `_enqueue` compares on UPDATE. -/
def watched (r : RegistryEntry) : Except String (List Text) :=
  match refs r.format with
  | .error e => .error e
  | .ok rs =>
    let rs := if r.recursive then rs.filter (· ≠ chunkName) else rs
    .ok (if r.sourceColumn ∈ rs then rs else r.sourceColumn :: rs)

/-- `RegistryEntry::referenced_columns`. -/
def RegistryEntry.referencedColumns (e : RegistryEntry) : Except FormatError (List Text) :=
  match e.format with
  | none => .ok [e.sourceColumn]
  | some t =>
    match parseFormat t with
    | .error err => .error err
    | .ok segs =>
      if e.recursive then
        .ok ((formatReferencedColumns segs).foldl
          (fun out c => if c ≠ chunkName then addRef out c else out) [e.sourceColumn])
      else .ok (formatReferencedColumns segs)

/-- The worker's `entry`, up to its locks and catalog checks: a quarantine text, or the columns the
    worker is about to read. -/
def entry (e : RegistryEntry) : Except String (List Text) :=
  if e.pkColumns = [] ∨ e.pkColumns.length ≠ e.pkTypes.length then
    .error "invalid primary key metadata"
  else
    match e.referencedColumns with
    | .error err => .error err.toText
    | .ok columns => .ok (columns ++ e.pkColumns ++ [e.sourceColumn])

/-- One segment of a render expression on a row: `COALESCE(col::text, '')` for a column, and in
    chunk mode the chunk's text for `$chunk`. -/
def renderSeg (row : Text → Option Text) (chunk : Option Text) : FormatSeg → Text
  | .literal s => s
  | .column c =>
    match chunk with
    | some ct => if c = chunkName then ct else (row c).getD []
    | none => (row c).getD []

/-- `format_expr` and `chunk_format_expr` evaluated on a row (and a chunk of it). -/
def RegistryEntry.render (e : RegistryEntry) (row : Text → Option Text) (chunk : Option Text) :
    Except FormatError (Option Text) :=
  match e.format with
  | none => .ok (match chunk with | some ct => some ct | none => row e.sourceColumn)
  | some t =>
    match parseFormat t with
    | .error err => .error err
    | .ok segs =>
      .ok (if (row e.sourceColumn).isSome then some (segs.flatMap (renderSeg row chunk))
        else none)

/-- The table columns that stand in the entry's render expression. -/
def RegistryEntry.renderedColumns (e : RegistryEntry) : List Text :=
  match e.format with
  | none => if e.recursive then [] else [e.sourceColumn]
  | some t =>
    match parseFormat t with
    | .error _ => []
    | .ok segs => (segCols segs).filter (fun c => ¬ (e.recursive = true ∧ c = chunkName))

/-! ## 3. What `_refs` reads -/

/-- The two loops over `${...}` are the same loop. -/
theorem refsBrace_eq (cs : List (Nat × Char)) (name : Text) :
    refsBrace name (cs.map Prod.snd) =
      (braceLoop name cs).map (fun r => (r.1, r.2.map Prod.snd)) := by
  fun_induction braceLoop name cs with
  | case1 => rfl
  | case2 name p p' cs' ih => simpa [refsBrace] using ih
  | case3 name p cs hcs =>
    cases cs with
    | nil => simp [refsBrace]
    | cons d ds =>
      obtain ⟨q, d⟩ := d
      have hd : d ≠ '}' := fun e => hcs q ds (by rw [e])
      simp [refsBrace, hd]
  | case4 name p c cs hc ih =>
    simp only [map_cons]
    unfold refsBrace
    rw [if_neg hc, ih]

theorem refsBrace_some_iff {t n r : Text} : refsBrace [] t = some (n, r) ↔ Braced t n r := by
  have e := refsBrace_eq (charIndices 0 t) []
  rw [map_charIndices] at e
  rw [e]
  constructor
  · intro h
    obtain ⟨⟨n', rest⟩, hb, h'⟩ := map_eq_some_iff.mp h
    obtain ⟨rfl, rfl⟩ := Prod.mk.injEq .. ▸ h'
    obtain ⟨m, em, hbr⟩ := braceLoop_braced hb
    rw [nil_append] at em
    rwa [map_charIndices, ← em] at hbr
  · intro h
    obtain ⟨rest, hb, hr⟩ := braced_braceLoop h (charIndices 0 t) [] (map_charIndices t 0)
    rw [hb]
    simp [hr]

variable {t : Text} {rs : List Text} {e : RegistryEntry} {segs : List FormatSeg}

theorem refsLoop_reads {out : List Text} (h : refsLoop rs t = .ok out) :
    ∃ ss, Reads t ss ∧ out = (colsOf ss).foldl addRef rs := by
  fun_induction refsLoop rs t with
  | case1 rs =>
    simp only [Except.ok.injEq] at h
    exact ⟨[], .nil, h.symm⟩
  | case2 rs c cs hc ih =>
    obtain ⟨ss, hr, e⟩ := ih h
    exact ⟨.lit c :: ss, .char hc hr, e⟩
  | case3 => simp at h
  | case4 rs c hd cs' ih =>
    obtain rfl := not_not.mp hd
    obtain ⟨ss, hr, e⟩ := ih h
    exact ⟨.lit '$' :: ss, .dollar hr, e⟩
  | case5 | case6 => simp at h
  | case7 rs c hd cs' name rest hb hne _ ih =>
    obtain rfl := not_not.mp hd
    obtain ⟨ss, hr, e⟩ := ih h
    exact ⟨.col name :: ss, .braced (refsBrace_some_iff.mp hb) hne hr, e⟩
  | case8 => simp at h
  | case9 rs c hd d cs' _ _ hs name _ ih =>
    obtain rfl := not_not.mp hd
    obtain ⟨ss, hr, e⟩ := ih h
    refine ⟨.col name :: ss, ?_, e⟩
    simp only [name, pgNameChar_eq] at hr ⊢
    exact .simple (pgNameStart_eq ▸ hs) hr
  | case10 => simp at h

theorem reads_refsLoop {ss : List Tok} (h : Reads t ss) :
    ∀ rs, refsLoop rs t = .ok ((colsOf ss).foldl addRef rs) := by
  induction h with
  | nil => intro rs; unfold refsLoop; rfl
  | char hc _ ih =>
    intro rs
    unfold refsLoop
    rw [if_pos hc]
    exact ih rs
  | dollar _ ih =>
    intro rs
    unfold refsLoop
    rw [if_neg (by simp)]
    exact ih rs
  | @simple c cs ss hc _ ih =>
    intro rs
    have hn : (c :: cs).takeWhile isNameChar ≠ [] := by simp [isNameStart_isNameChar hc]
    unfold refsLoop
    rw [if_neg (by simp)]
    simp only [if_neg (isNameStart_ne_dollar hc), if_neg (isNameStart_ne_brace hc),
      pgNameStart_eq, pgNameChar_eq, if_pos hc, if_neg hn]
    exact ih _
  | @braced cs name rest ss hb hne _ ih =>
    intro rs
    have hl := refsBrace_some_iff.mpr hb
    unfold refsLoop
    rw [if_neg (by simp)]
    simp only [Char.reduceEq, if_false, if_true]
    split
    · rename_i hn
      rw [hn] at hl
      simp at hl
    · rename_i n r hn
      rw [hn] at hl
      simp only [Option.some.injEq, Prod.mk.injEq] at hl
      obtain ⟨rfl, rfl⟩ := hl
      rw [if_neg hne]
      exact ih _

theorem one_le_byteLen : 1 ≤ byteLen t ↔ t ≠ [] := by
  cases t with
  | nil => simp [byteLen]
  | cons c cs =>
    have := c.utf8Size_pos
    simp only [byteLen, map_cons, sum_cons, ne_eq, reduceCtorEq, not_false_eq_true,
      iff_true]
    omega

/-- What `_refs` accepts, and what it answers. -/
theorem refs_ok_iff :
    refs (some t) = .ok rs ↔
      t ≠ [] ∧ byteLen t ≤ formatMaxBytes ∧ ∃ ss, Reads t ss ∧ rs = firsts (colsOf ss) := by
  show (if 1 ≤ byteLen t ∧ byteLen t ≤ formatMaxBytes then refsLoop [] t
    else .error "invalid format length") = .ok rs ↔ _
  constructor
  · intro h
    split at h
    · rename_i hl
      obtain ⟨ss, hr, e⟩ := refsLoop_reads h
      exact ⟨one_le_byteLen.mp hl.1, hl.2, ss, hr, e⟩
    · simp at h
  · rintro ⟨hne, hlen, ss, hr, rfl⟩
    rw [if_pos ⟨one_le_byteLen.mpr hne, hlen⟩]
    exact reads_refsLoop hr []

/-! ## 4. Agreement -/

theorem formatReferencedColumns_segsOf (ss : List Tok) :
    formatReferencedColumns (segsOf [] [] ss) = firsts (colsOf ss) := by
  rw [formatReferencedColumns_eq, segCols_segsOf]
  simp [segCols]

theorem formatCheck_refs {supported : Text → Bool} {src : Text} {chunked : Bool}
    (h : formatCheck supported (some t) src chunked = .ok ()) : ∃ rs, refs (some t) = .ok rs := by
  unfold formatCheck at h
  split at h
  · rename_i e
    simp at e
  · rename_i t' e
    cases e
    split at h
    · simp at h
    · rename_i rs hrs
      exact ⟨rs, hrs⟩

theorem mem_source_or {s c : Text} :
    c ∈ (if s ∈ rs then rs else s :: rs) ↔ c = s ∨ c ∈ rs := by
  split
  · rename_i hs
    exact ⟨.inr, fun h => h.elim (fun e => e ▸ hs) id⟩
  · exact mem_cons

/-- On a template both sides accept, `_enqueue` watches the source and the rendered columns. -/
theorem watched_rendered
    (ht : e.format = some t) (hr : refs (some t) = .ok (formatReferencedColumns segs))
    (hp : parseFormat t = .ok segs) :
    ∃ ws, watched e = .ok ws ∧ ∀ c, c ∈ ws ↔ c = e.sourceColumn ∨ c ∈ e.renderedColumns := by
  simp only [watched, RegistryEntry.renderedColumns, ht, hr, hp, Except.ok.injEq,
    exists_eq_left', formatReferencedColumns_eq, mem_source_or]
  intro c
  cases e.recursive <;> simp

theorem entry_ok (ht : e.format = some t) (hp : parseFormat t = .ok segs) (hpk : e.pkColumns ≠ [])
    (hty : e.pkColumns.length = e.pkTypes.length) : ∃ columns, entry e = .ok columns := by
  have hc : ∃ columns, e.referencedColumns = .ok columns := by
    simp only [RegistryEntry.referencedColumns, ht, hp]
    split <;> exact ⟨_, rfl⟩
  obtain ⟨columns, hc⟩ := hc
  exact ⟨_, by simp [entry, hpk, hty, hc]; rfl⟩

/-- **When the two scanners agree.** On a template `t`: `_refs` and `parse_format` accept together
    and name the same columns, an entry whose template `_format` accepted is never quarantined for
    it, and `_enqueue` watches exactly the source and the rendered columns. All of this holds
    exactly when `t`, read within the length limit, names at most 64 distinct columns. -/
theorem templateCheck_agrees_iff (t : Text) :
    (((∃ rs, refs (some t) = .ok rs) ↔ ∃ segs, parseFormat t = .ok segs) ∧
      (∀ rs segs, refs (some t) = .ok rs → parseFormat t = .ok segs →
        rs = formatReferencedColumns segs) ∧
      ∀ (supported : Text → Bool) (e : RegistryEntry), e.format = some t →
        formatCheck supported e.format e.sourceColumn e.recursive = .ok () →
          (e.pkColumns ≠ [] → e.pkColumns.length = e.pkTypes.length →
            ∃ columns, entry e = .ok columns) ∧
          ∃ ws, watched e = .ok ws ∧
            ∀ c, c ∈ ws ↔ c = e.sourceColumn ∨ c ∈ e.renderedColumns) ↔
    ∀ ss, Reads t ss → byteLen t ≤ 16384 → (colsOf ss).toFinset.card ≤ 64 := by
  constructor
  · rintro ⟨hacc, -, -⟩ ss hr hlen
    by_contra hcard
    -- a reading with a column is not the reading of the empty text
    have hne : t ≠ [] := by
      rintro rfl
      cases hr
      simp at hcard
    obtain ⟨segs, hp⟩ := hacc.mp ⟨_, refs_ok_iff.mpr ⟨hne, hlen, ss, hr, rfl⟩⟩
    obtain ⟨-, -, ss', hr', hcard', -⟩ := parseFormat_ok_iff.mp hp
    rw [hr'.colsOf_unique hr] at hcard'
    exact hcard hcard'
  · intro hfew
    have hparse : ∀ rs, refs (some t) = .ok rs →
        ∃ segs, parseFormat t = .ok segs ∧ rs = formatReferencedColumns segs := by
      intro rs h
      obtain ⟨hne, hlen, ss, hr, rfl⟩ := refs_ok_iff.mp h
      exact ⟨_, parseFormat_ok_iff.mpr ⟨hne, hlen, ss, hr, hfew ss hr hlen, rfl⟩,
        (formatReferencedColumns_segsOf ss).symm⟩
    refine ⟨⟨?_, ?_⟩, ?_, ?_⟩
    · rintro ⟨rs, h⟩
      obtain ⟨segs, hp, -⟩ := hparse rs h
      exact ⟨segs, hp⟩
    · rintro ⟨segs, hp⟩
      obtain ⟨hne, hlen, ss, hr, -, -⟩ := parseFormat_ok_iff.mp hp
      exact ⟨_, refs_ok_iff.mpr ⟨hne, hlen, ss, hr, rfl⟩⟩
    · intro rs segs h hp
      obtain ⟨segs', hp', e⟩ := hparse rs h
      rw [hp] at hp'
      rw [e, Except.ok.inj hp']
    · intro supported e ht hf
      rw [ht] at hf
      obtain ⟨rs, h⟩ := formatCheck_refs hf
      obtain ⟨segs, hp, rfl⟩ := hparse rs h
      exact ⟨entry_ok ht hp, watched_rendered ht h hp⟩

/-! ## 5. A template the database accepts and the worker does not -/

/-- The template `$n₁$n₂...`. -/
def refsTemplate (names : List Text) : Text := names.flatMap ('$' :: ·)

theorem reads_refsTemplate : ∀ (names : List Text),
    (∀ n ∈ names, (n.head?.any isNameStart && n.all isNameChar) = true) →
    Reads (refsTemplate names) (names.map .col)
  | [], _ => .nil
  | n :: names, h => by
    have ih := reads_refsTemplate names (fun m hm => h m (mem_cons_of_mem n hm))
    have hn := h n mem_cons_self
    cases n with
    | nil => simp at hn
    | cons c cs =>
      simp only [List.head?_cons, any_some, Bool.and_eq_true] at hn
      obtain ⟨hc, hall⟩ := hn
      have hall' : ∀ a ∈ c :: cs, isNameChar a = true := List.all_eq_true.mp hall
      -- the identifier ends where the next reference's dollar sign stands
      have hrest : (refsTemplate names).takeWhile isNameChar = [] ∧
          (refsTemplate names).dropWhile isNameChar = refsTemplate names := by
        cases names with
        | nil | cons => exact ⟨rfl, rfl⟩
      have ht : (c :: (cs ++ refsTemplate names)).takeWhile isNameChar = c :: cs := by
        rw [← cons_append, takeWhile_append_of_pos hall', hrest.1, append_nil]
      have hd : (c :: (cs ++ refsTemplate names)).dropWhile isNameChar =
          refsTemplate names := by
        rw [← cons_append, dropWhile_append_of_pos hall', hrest.2]
      have hr : Reads ('$' :: c :: (cs ++ refsTemplate names))
          (.col ((c :: (cs ++ refsTemplate names)).takeWhile isNameChar) :: names.map .col) :=
        .simple hc (hd.symm ▸ ih)
      rwa [ht] at hr

/-- The columns `c00`, ..., `c64`. -/
def manyNames : List Text :=
  (List.range 65).map fun i => ['c', Nat.digitChar (i / 10), Nat.digitChar (i % 10)]

/-- An entry on `c00` whose template names all of them. -/
def manyColumnsEntry : RegistryEntry where
  sourceColumn := ['c', '0', '0']
  pkColumns := [['i', 'd']]
  pkTypes := [['b', 'i', 'g', 'i', 'n', 't']]
  format := some (refsTemplate manyNames)
  recursive := false

theorem manyNames_reads : Reads (refsTemplate manyNames) (manyNames.map .col) :=
  reads_refsTemplate manyNames (by decide)

/-- On a table with the columns `c00` to `c64`, `_refs` and `_format` accept a template naming all
    65 of them, and the worker quarantines the entry. -/
theorem manyColumns_quarantines :
    refs manyColumnsEntry.format = .ok manyNames ∧
    formatCheck (fun c => manyNames.contains c) manyColumnsEntry.format
      manyColumnsEntry.sourceColumn manyColumnsEntry.recursive = .ok () ∧
    parseFormat (refsTemplate manyNames) =
      .error ⟨0, "65 distinct columns referenced (max 64)"⟩ ∧
    entry manyColumnsEntry = .error "65 distinct columns referenced (max 64) (at byte 0)" := by
  have hcols : firsts (colsOf (manyNames.map .col)) = manyNames := by decide +kernel
  have hlen : byteLen (refsTemplate manyNames) ≤ formatMaxBytes := by decide +kernel
  have hrefs : refs (some (refsTemplate manyNames)) = .ok manyNames :=
    refs_ok_iff.mpr ⟨by decide, hlen, _, manyNames_reads, hcols.symm⟩
  have hparse : parseFormat (refsTemplate manyNames) =
      .error ⟨0, "65 distinct columns referenced (max 64)"⟩ := by
    unfold parseFormat
    rw [if_neg (by decide), if_neg (Nat.not_lt.mpr hlen),
      reads_parseLoop manyNames_reads _ [] [] (map_charIndices _ 0)]
    simp only [formatReferencedColumns_segsOf, hcols]
    rfl
  refine ⟨hrefs, ?_, hparse, ?_⟩
  · show formatCheck _ (some (refsTemplate manyNames)) _ _ = _
    unfold formatCheck
    have hsup : unsupported (fun c => manyNames.contains c) false manyNames = none :=
      unsupported_eq_none (fun n hn => contains_iff_mem.mpr hn)
    simp only [hrefs, manyColumnsEntry, hsup]
    decide
  · simp only [entry, RegistryEntry.referencedColumns, manyColumnsEntry, hparse]
    rfl

end Postvec
