import Postvec.Source.Txn

/-!
# The destination table of a chunked entry

A recursive entry keeps the pieces a document's source is split into as rows of a table of its own,
each with the vector of its rendered text. Chunk ids come from an identity column and are never used
again (`Destination` carries that).

`DocFormat` is how a document is split, rendered and embedded, and `DocFormat.Fresh` what must hold
of every committed state: the chunks of a document are the pieces of its current source, and a
chunk's vector is the one of its current rendering. The lemmas say which changes of table and
destination keep it.
-/

namespace Postvec

open Machine List

/-! ## 1. The table -/

/-- A row of the destination table. `piece` stands for the sequence number, the character range and
    the text. -/
structure Chunk (K C V : Type*) where
  cid : Nat
  pk : K
  piece : C
  vec : Option V
deriving DecidableEq, Repr

/-- The destination table. -/
structure Destination (K C V : Type*) where
  chunks : List (Chunk K C V)
  nextCid : Nat
  cids_lt : ∀ c ∈ chunks, c.cid < nextCid
  cids_nodup : (chunks.map Chunk.cid).Nodup

variable {K C V : Type*}

/-- The rows one document's pieces become, with ids from `n` on. -/
def newChunks (k : K) : Nat → List C → List (Chunk K C V)
  | _, [] => []
  | n, p :: ps => ⟨n, k, p, none⟩ :: newChunks k (n + 1) ps

@[simp] theorem map_piece_newChunks (k : K) : ∀ (n : Nat) (ps : List C),
    (newChunks k n ps : List (Chunk K C V)).map Chunk.piece = ps
  | _, [] => rfl
  | n, p :: ps => by simp [newChunks, map_piece_newChunks k (n + 1) ps]

@[simp] theorem map_cid_newChunks (k : K) : ∀ (n : Nat) (ps : List C),
    (newChunks k n ps : List (Chunk K C V)).map Chunk.cid = List.range' n ps.length
  | _, [] => rfl
  | n, p :: ps => by simp [newChunks, map_cid_newChunks k (n + 1) ps, range'_succ]

theorem mem_newChunks {k : K} {c : Chunk K C V} : ∀ {n : Nat} {ps : List C},
    c ∈ newChunks k n ps → c.pk = k ∧ c.vec = none ∧ n ≤ c.cid ∧ c.cid < n + ps.length
  | n, p :: ps, h => by
    rcases mem_cons.mp h with rfl | h
    · refine ⟨rfl, rfl, Nat.le_refl _, ?_⟩
      simp only [length_cons]
      omega
    · obtain ⟨hk, hv, hn, hl⟩ := mem_newChunks h
      refine ⟨hk, hv, by omega, ?_⟩
      simp only [length_cons]
      omega

namespace Destination

def empty : Destination K C V := ⟨[], 0, by simp, by simp⟩

/-- Chunk ids are unique. -/
theorem eq_of_cid (d : Destination K C V) {c c' : Chunk K C V} (h : c ∈ d.chunks)
    (h' : c' ∈ d.chunks) (e : c.cid = c'.cid) : c = c' :=
  inj_on_of_nodup_map d.cids_nodup h h' e

/-- `DELETE ... WHERE postvec_source_pk ...`. -/
def delete (d : Destination K C V) (p : K → Bool) : Destination K C V where
  chunks := d.chunks.filter fun c => !p c.pk
  nextCid := d.nextCid
  cids_lt := fun c h => d.cids_lt c (mem_of_mem_filter h)
  cids_nodup := d.cids_nodup.sublist (filter_sublist.map _)

/-- `INSERT` of a document's pieces, without vectors. -/
def insert (d : Destination K C V) (k : K) (ps : List C) : Destination K C V where
  chunks := d.chunks ++ newChunks k d.nextCid ps
  nextCid := d.nextCid + ps.length
  cids_lt := by
    intro c h
    rcases mem_append.mp h with h | h
    · have := d.cids_lt c h
      omega
    · exact (mem_newChunks h).2.2.2
  cids_nodup := by
    rw [map_append, map_cid_newChunks]
    refine nodup_append.mpr ⟨d.cids_nodup, nodup_range', ?_⟩
    intro i hi i' hi' e
    obtain ⟨c, hc, rfl⟩ := mem_map.mp hi
    have hlt := d.cids_lt c hc
    have hge := (mem_range'_1.mp hi').1
    omega

/-- The ids an insert returns. -/
def newIds (d : Destination K C V) (ps : List C) : List Nat := List.range' d.nextCid ps.length

/-- One row under the `UPDATE` of the vector column. -/
def writeChunk (p : Chunk K C V → Bool) (v : Option V) (c : Chunk K C V) : Chunk K C V :=
  if p c then { c with vec := v } else c

@[simp] theorem writeChunk_cid (p : Chunk K C V → Bool) (v : Option V) (c : Chunk K C V) :
    (writeChunk p v c).cid = c.cid := by
  unfold writeChunk
  split <;> rfl

@[simp] theorem writeChunk_pk (p : Chunk K C V → Bool) (v : Option V) (c : Chunk K C V) :
    (writeChunk p v c).pk = c.pk := by
  unfold writeChunk
  split <;> rfl

@[simp] theorem writeChunk_piece (p : Chunk K C V → Bool) (v : Option V) (c : Chunk K C V) :
    (writeChunk p v c).piece = c.piece := by
  unfold writeChunk
  split <;> rfl

/-- `UPDATE ... SET vector = v` over the rows `p` selects. -/
def write (d : Destination K C V) (p : Chunk K C V → Bool) (v : Option V) :
    Destination K C V where
  chunks := d.chunks.map (writeChunk p v)
  nextCid := d.nextCid
  cids_lt := by
    intro c h
    obtain ⟨c', hc', rfl⟩ := mem_map.mp h
    rw [writeChunk_cid]
    exact d.cids_lt c' hc'
  cids_nodup := by
    rw [map_map, show Chunk.cid ∘ writeChunk p v = Chunk.cid from
      funext (writeChunk_cid p v)]
    exact d.cids_nodup

/-- The row with the given id. -/
def find (d : Destination K C V) (cid : Nat) : Option (Chunk K C V) :=
  d.chunks.find? fun c => c.cid == cid

variable [DecidableEq K]

/-- The pieces kept for a document, in the order they were inserted. -/
def pieces (d : Destination K C V) (k : K) : List C :=
  (d.chunks.filter fun c => decide (c.pk = k)).map Chunk.piece

variable {d : Destination K C V} {k : K}

variable {c : Chunk K C V}

omit [DecidableEq K] in
theorem mem_find {cid : Nat} (h : d.find cid = some c) :
    c ∈ d.chunks ∧ c.cid = cid :=
  ⟨mem_of_find?_eq_some h, by simpa using List.find?_some h⟩

variable {p : K → Bool}

omit [DecidableEq K] in
@[simp] theorem mem_delete :
    c ∈ (d.delete p).chunks ↔ c ∈ d.chunks ∧ p c.pk = false := by
  simp [delete]

theorem pieces_delete_of_false (h : p k = false) :
    (d.delete p).pieces k = d.pieces k := by
  simp only [pieces, delete, filter_filter]
  congr 1
  refine filter_congr fun c _ => ?_
  by_cases e : c.pk = k
  · simp [e, h]
  · simp [e]

theorem pieces_delete_of_true (h : p k = true) : (d.delete p).pieces k = [] := by
  simp only [pieces, delete, filter_filter]
  rw [filter_eq_nil_iff.mpr, map_nil]
  intro c _
  by_cases e : c.pk = k
  · simp [e, h]
  · simp [e]

theorem pieces_insert (k' : K) (ps : List C) :
    (d.insert k' ps).pieces k = d.pieces k ++ if k' = k then ps else [] := by
  have hnew : ((newChunks k' d.nextCid ps : List (Chunk K C V)).filter
      fun c => decide (c.pk = k)).map Chunk.piece = if k' = k then ps else [] := by
    by_cases e : k' = k
    · rw [if_pos e, filter_eq_self.mpr, map_piece_newChunks]
      intro c hc
      simpa using (mem_newChunks hc).1.trans e
    · rw [if_neg e, filter_eq_nil_iff.mpr, map_nil]
      intro c hc
      simpa [(mem_newChunks hc).1] using e
  simp only [pieces, insert, filter_append, map_append, hnew]

@[simp] theorem pieces_write (p : Chunk K C V → Bool) (v : Option V) :
    (d.write p v).pieces k = d.pieces k := by
  simp only [pieces, write, filter_map, map_map]
  congr 1
  · exact funext fun c => writeChunk_piece p v c
  · refine filter_congr fun c _ => ?_
    simp

theorem mem_pieces (h : c ∈ d.chunks) : c.piece ∈ d.pieces c.pk :=
  mem_map_of_mem (mem_filter.mpr ⟨h, by simp⟩)

theorem exists_of_pieces_ne_nil (h : d.pieces k ≠ []) : ∃ c ∈ d.chunks, c.pk = k := by
  obtain ⟨p, hp⟩ := exists_mem_of_ne_nil _ h
  obtain ⟨c, hc, -⟩ := mem_map.mp hp
  obtain ⟨hc, e⟩ := mem_filter.mp hc
  exact ⟨c, hc, by simpa using e⟩

end Destination

open Destination

/-! ## 2. How documents are split, rendered and embedded -/

/-- The source column of a row, the splitter (`none` is its error), the chunk template over a row's
    columns and a piece, and the model. -/
structure DocFormat (δ T C X V : Type*) where
  source : δ → Option T
  split : T → Option (List C)
  render : δ → C → Option X
  embed : X → V

variable {δ T X P : Type*}

/-- The pieces of a document: none when the row is gone or has no source. -/
def DocFormat.cut (F : DocFormat δ T C X V) (doc : Option δ) : Option (List C) :=
  match doc.bind F.source with
  | none => some []
  | some t => F.split t

/-- What the chunks of a row are made from: its source, and what the pieces of it render to. -/
def DocFormat.shown (F : DocFormat δ T C X V) (d : δ) : Option T × Option (List (Option X)) :=
  (F.source d, ((F.source d).bind F.split).map fun ps => ps.map (F.render d))

theorem DocFormat.cut_of_shown {F : DocFormat δ T C X V} {o o' : Option δ}
    (h : o'.map F.shown = o.map F.shown) : F.cut o' = F.cut o := by
  have hs : ∀ o : Option δ, o.bind F.source = (o.map F.shown).bind Prod.fst := by
    intro o
    cases o <;> rfl
  rw [cut, cut, hs, hs, h]

theorem DocFormat.render_of_shown {F : DocFormat δ T C X V} {d d' : δ} {ps : List C} {p : C}
    (h : F.shown d' = F.shown d) (hps : F.cut (some d) = some ps) (hp : p ∈ ps) :
    F.render d' p = F.render d p := by
  obtain ⟨hsrc, htexts⟩ := Prod.mk.inj h
  cases hs : F.source d with
  | none =>
    simp only [cut, Option.bind_some, hs] at hps
    cases hps
    cases hp
  | some t =>
    simp only [cut, Option.bind_some, hs] at hps
    simp only [hsrc, hs, Option.bind_some, hps, Option.map_some] at htexts
    exact map_inj_left.mp (Option.some.inj htexts) p hp

/-- The watched columns of the row under a key. -/
def docAt (rows : Table K (Row δ P)) (k : K) : Option δ := (rows.get k).map Row.doc

variable [DecidableEq K]

/-- **No stale chunk.** The chunks of a document are the pieces of its current source, and a
    chunk's vector is the one of its current rendering. -/
structure DocFormat.Fresh (F : DocFormat δ T C X V) (rows : Table K (Row δ P))
    (dest : Destination K C V) : Prop where
  pieces : ∀ c ∈ dest.chunks, F.cut (docAt rows c.pk) = some (dest.pieces c.pk)
  vectors : ∀ c ∈ dest.chunks, ∀ v, c.vec = some v →
    ∃ d x, docAt rows c.pk = some d ∧ F.render d c.piece = some x ∧ v = F.embed x

/-- A text is the current rendering of the chunk with this id and key, if there is one. -/
def DocFormat.Renders (F : DocFormat δ T C X V) (rows : Table K (Row δ P))
    (dest : Destination K C V) (cid : Nat) (k : K) (x : X) : Prop :=
  ∀ c ∈ dest.chunks, c.cid = cid → c.pk = k →
    ∃ d, docAt rows k = some d ∧ F.render d c.piece = some x

section Fresh

variable {F : DocFormat δ T C X V} {rows rows' : Table K (Row δ P)} {dest : Destination K C V}
  {k : K} {cut : K → Bool} {cid : Nat} {x : X} {ps : List C} {p : Chunk K C V → Bool} {v : Option V}

/-- A document without a source has no chunks. -/
theorem DocFormat.Fresh.pieces_nil (h : F.Fresh rows dest)
    (hs : (docAt rows k).bind F.source = none) : dest.pieces k = [] := by
  by_contra hne
  obtain ⟨c, hc, rfl⟩ := dest.exists_of_pieces_ne_nil hne
  have := h.pieces c hc
  rw [cut, hs] at this
  exact hne (Option.some.inj this).symm

/-- A document with chunks has a row. -/
theorem DocFormat.Fresh.docAt_ne_none (h : F.Fresh rows dest) {c : Chunk K C V}
    (hc : c ∈ dest.chunks) : docAt rows c.pk ≠ none := by
  intro e
  have hp := dest.mem_pieces hc
  rw [h.pieces_nil (by rw [e]; rfl)] at hp
  cases hp

/-- A chunk whose row shows what it showed has the rendering it had. -/
theorem DocFormat.Fresh.render (h : F.Fresh rows dest) {c : Chunk K C V} (hc : c ∈ dest.chunks)
    (hs : (docAt rows' c.pk).map F.shown = (docAt rows c.pk).map F.shown) {d : δ}
    (hd : docAt rows c.pk = some d) (hx : F.render d c.piece = some x) :
    ∃ d', docAt rows' c.pk = some d' ∧ F.render d' c.piece = some x := by
  have hp := h.pieces c hc
  rw [hd] at hs hp
  obtain ⟨d', hd', e⟩ := Option.map_eq_some_iff.mp hs
  exact ⟨d', hd', (render_of_shown e hp (dest.mem_pieces hc)).trans hx⟩

section Commit

variable (h : F.Fresh rows dest) (hd : ∀ c ∈ dest.chunks, cut c.pk = true ∨
  (docAt rows' c.pk).map F.shown = (docAt rows c.pk).map F.shown)
include h hd

/-- **A commit**: a document keeps its chunks only if its row shows what it showed. -/
theorem DocFormat.Fresh.commit : F.Fresh rows' (dest.delete cut) where
  pieces := by
    intro c hc
    obtain ⟨hc, hk⟩ := mem_delete.mp hc
    rw [pieces_delete_of_false hk, cut_of_shown ((hd c hc).resolve_left (by simp [hk]))]
    exact h.pieces c hc
  vectors := by
    intro c hc v hv
    obtain ⟨hc, hk⟩ := mem_delete.mp hc
    obtain ⟨d, x, hdoc, hx, e⟩ := h.vectors c hc v hv
    obtain ⟨d', hd', hx'⟩ := h.render hc ((hd c hc).resolve_left (by simp [hk])) hdoc hx
    exact ⟨d', x, hd', hx', e⟩

theorem DocFormat.Renders.commit (hr : F.Renders rows dest cid k x) :
    F.Renders rows' (dest.delete cut) cid k x := by
  intro c hc e ek
  obtain ⟨hc, hk⟩ := mem_delete.mp hc
  obtain ⟨d, hdoc, hx⟩ := hr c hc e ek
  subst ek
  exact h.render hc ((hd c hc).resolve_left (by simp [hk])) hdoc hx

end Commit

/-- **A refresh** replaces a document's chunks by the pieces of its current source. -/
theorem DocFormat.Fresh.replace (h : F.Fresh rows dest)
    (hp : F.cut (docAt rows k) = some ps) :
    F.Fresh rows ((dest.delete fun k' => decide (k' = k)).insert k ps) where
  pieces := by
    intro c hc
    rw [pieces_insert]
    by_cases e : c.pk = k
    · rw [e, pieces_delete_of_true (by simp), if_pos rfl, nil_append]
      exact hp
    · rw [pieces_delete_of_false (by simp [e]), if_neg (Ne.symm e), append_nil]
      rcases mem_append.mp hc with hc | hc
      · exact h.pieces c (mem_delete.mp hc).1
      · exact absurd (mem_newChunks hc).1 e
  vectors := by
    intro c hc v hv
    rcases mem_append.mp hc with hc | hc
    · exact h.vectors c (mem_delete.mp hc).1 v hv
    · rw [(mem_newChunks hc).2.1] at hv
      cases hv

theorem DocFormat.Renders.replace {k' : K}
    (h : F.Renders rows dest cid k' x) (hlt : cid < dest.nextCid) :
    F.Renders rows ((dest.delete fun k' => decide (k' = k)).insert k ps) cid k' x := by
  intro c hc e ek
  rcases mem_append.mp hc with hc | hc
  · exact h c (mem_delete.mp hc).1 e ek
  · have hge : dest.nextCid ≤ c.cid := (mem_newChunks hc).2.2.1
    omega

/-- **A write-back** of the vector of a current rendering. -/
theorem DocFormat.Fresh.write (h : F.Fresh rows dest)
    (hv : ∀ c ∈ dest.chunks, p c = true → ∀ v', v = some v' →
      ∃ d x, docAt rows c.pk = some d ∧ F.render d c.piece = some x ∧ v' = F.embed x) :
    F.Fresh rows (dest.write p v) where
  pieces := by
    intro c hc
    obtain ⟨c₀, hc₀, rfl⟩ := mem_map.mp hc
    rw [writeChunk_pk, pieces_write]
    exact h.pieces c₀ hc₀
  vectors := by
    intro c hc v' hv'
    obtain ⟨c₀, hc₀, rfl⟩ := mem_map.mp hc
    rw [writeChunk_pk, writeChunk_piece]
    by_cases hp : p c₀ = true
    · refine hv c₀ hc₀ hp v' ?_
      rw [writeChunk, if_pos hp] at hv'
      exact hv'
    · rw [writeChunk, if_neg hp] at hv'
      exact h.vectors c₀ hc₀ v' hv'

omit [DecidableEq K] in
theorem DocFormat.Renders.write (h : F.Renders rows dest cid k x) :
    F.Renders rows (dest.write p v) cid k x := by
  intro c hc e ek
  obtain ⟨c₀, hc₀, rfl⟩ := mem_map.mp hc
  rw [writeChunk_piece]
  exact h c₀ hc₀ (by simpa using e) (by simpa using ek)

end Fresh

end Postvec
