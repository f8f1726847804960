import Postvec.Managed.Column

/-!
# What rows rely on

A column-mode entry owes each row something, whatever that is (`good`), or a job of its key that
will see to it (`Stands`); which jobs do is a parameter too (`sure`). `Relied` says so of the
committed rows and of the rows an open transaction is about to commit. The steps of writers keep it,
for triggers that enqueue what changes (`RowTriggers`), and so do the leader's steps on the queue, a
write into one row that nobody else has written, and a change of the table's columns; a claim does
if no job of an absent key is claimed that a row of an open transaction relies on (`Relied.claim`).
-/

namespace Postvec.Managed

open Machine List Option

variable {K δ T P : Type*}

/-! ## 1. Reliance -/

/-- The transaction has updated the row in place with the text it has, and has deleted no job and no
    dead job of the key. -/
def TouchedRow (text : δ → Option T) (db : Db K δ P) (t : Txn K δ P) (k : K) : Prop :=
  t.trunc = false ∧
    (∃ r d, db.rows.get k = some r ∧ t.mine.get k = some (.updated d) ∧ text d = text r.doc) ∧
    (∀ j ∈ db.queue.jobs, j.slot.pk = k → j.id ∉ t.dropped) ∧
    ∀ d ∈ t.droppedDead, d.slot.pk ≠ k

/-- What the row `r` an open transaction holds under `k` can rely on once it is committed. -/
def CoveredBy (text : δ → Option T) (good : Row δ P → Prop) (sure : Nat → Prop) (db : Db K δ P)
    (t : Txn K δ P) (k : K) (r : Row δ P) : Prop :=
  good r ∨ rowSlot k ∈ t.own ∨ Stands db.queue sure t.dropped t.droppedDead k ∨
    TouchedRow text db t k

/-- Every row has what it is owed, or something to rely on. -/
structure Relied (text : δ → Option T) (good : Row δ P → Prop) (sure : Nat → Prop) (db : Db K δ P) :
    Prop where
  settled : ∀ k r, db.rows.get k = some r → good r ∨ Stands db.queue sure [] [] k
  covered : ∀ x t, db.txns.get x = some t → ∀ k, t.mine.get k ≠ none →
    ∀ r, (t.table x db.rows).get k = some r → CoveredBy text good sure db t k r
  drops : ∀ x t, db.txns.get x = some t → t.Drops db.queue
  locks : db.Locks
  stamped : db.Stamped

/-- What is owed to a row depends on its text and its columns only, and a row inserted without a
    text has it. -/
structure Owed [Inhabited P] (text : δ → Option T) (good : Row δ P → Prop) : Prop where
  congr : ∀ r r', text r'.doc = text r.doc → r'.cols = r.cols → good r → good r'
  fresh : ∀ r, text r.doc = none → r.cols = default → good r

variable {text : δ → Option T} {good good' : Row δ P → Prop} {sure sure' : Nat → Prop}
  {db db' : Db K δ P}

/-- With no transaction open. -/
theorem relied_of_idle (htx : ∀ x, db.txns.get x = none)
    (hv : ∀ k r, db.rows.get k = some r → r.xmin < db.nextXid)
    (h : ∀ k r, db.rows.get k = some r → good r ∨ Stands db.queue sure [] [] k) :
    Relied text good sure db where
  settled := h
  covered := fun x t ht => by simp [htx] at ht
  drops := fun x t ht => by simp [htx] at ht
  locks := ⟨fun x y t t' hx => by simp [htx] at hx, fun x y t t' hx => by simp [htx] at hx⟩
  stamped := ⟨fun k r hr => ⟨hv k r hr, htx _⟩, fun x t ht => by simp [htx] at ht,
    fun x t ht => by simp [htx] at ht⟩

/-- Nothing is owed that a row does not have. -/
theorem relied_of_all (hg : ∀ r, good r) (hd : ∀ x t, db.txns.get x = some t → t.Drops db.queue)
    (hl : db.Locks) (hs : db.Stamped) : Relied text good sure db where
  settled := fun _ r _ => .inl (hg r)
  covered := fun _ _ _ _ _ r _ => .inl (hg r)
  drops := hd
  locks := hl
  stamped := hs

theorem Relied.mono (h : Relied text good sure db) (hg : ∀ r, good r → good' r) :
    Relied text good' sure db where
  settled := fun k r hr => (h.settled k r hr).imp_left (hg r)
  covered := fun x t ht k hk r hr => (h.covered x t ht k hk r hr).imp_left (hg r)
  drops := h.drops
  locks := h.locks
  stamped := h.stamped

/-- The columns of every row change while no open transaction has written the table. -/
theorem Relied.map (h : Relied text good sure db) {g : Row δ P → Row δ P}
    (hfree : ∀ x t, db.txns.get x = some t → t.wrote = false) (hx : ∀ r, (g r).xmin = r.xmin)
    (hg : ∀ r, good r → good' (g r)) :
    Relied text good' sure { db with rows := db.rows.map g } where
  settled := by
    intro k r' hr'
    obtain ⟨r, hr, rfl⟩ := map_eq_some_iff.mp hr'
    exact (h.settled k r hr).imp_left (hg r)
  covered := fun x t ht k hk => absurd (t.mine_of_wrote (hfree x t ht) k) hk
  drops := h.drops
  locks := h.locks.mono fun x t ht => ht
  stamped := by
    refine ⟨fun k r' hr' => ?_, h.stamped.started, h.stamped.mine⟩
    obtain ⟨r, hr, rfl⟩ := map_eq_some_iff.mp hr'
    rw [hx]
    exact h.stamped.rows k r hr

variable [DecidableEq K] {k : K} {q : Queue K}

/-! ## 2. Steps of the leader -/

/-- What the leader's steps on the queue leave: the rows and the transactions, and whatever a key
    relied on. -/
structure Requeued (sure sure' : Nat → Prop) (db db' : Db K δ P) : Prop where
  rows : db'.rows = db.rows
  txns : db'.txns = db.txns
  nextXid : db'.nextXid = db.nextXid
  grows : Queue.Grows db.queue db'.queue
  stands : ∀ dropped droppedDead, Withheld db dropped droppedDead → ∀ k,
    Stands db.queue sure dropped droppedDead k → Stands db'.queue sure' dropped droppedDead k

section Requeued

variable {V : Type*} {id : Nat}

/-- The queue is left as it is. -/
theorem requeued_same (hsure : ∀ i, sure i → sure' i) : Requeued sure sure' db db :=
  ⟨rfl, rfl, rfl, Queue.Grows.refl _, fun _ _ _ _ h => h.mono hsure⟩

/-- A job is released. -/
theorem requeued_release (hsure : ∀ i, sure i → sure' i) {backoff : Bool}
    (hr : releaseWaits db id backoff = false)
    (hpend : ∀ q, Queue.Grows db.queue q → ∀ j ∈ q.jobs, j.claimed = false → sure' j.id) :
    Requeued sure sure' db { db with queue := release db.queue id backoff } := by
  have hg := (keeps_release db.queue id backoff).grows
  exact ⟨rfl, rfl, rfl, hg, fun _ _ hw _ h => h.release hw hr hsure (hpend _ hg)⟩

/-- **How a job ends.** Its row is written, or it ends in the queue alone: every key relies on what
    it did, where none relied on a job that read no row. -/
theorem Wrote.requeued {M : Model T V} {it : Item K T Nat} {current : Option Nat} {blocked : Bool}
    {w : Option (Option V)} (h : Wrote M db current blocked it q w)
    (hsure : ∀ i, sure i → sure' i)
    (hpend : ∀ q, Queue.Grows db.queue q → ∀ j ∈ q.jobs, j.claimed = false → sure' j.id)
    (hread : it.version = none → ¬ sure it.id) :
    (w = none ∧ Requeued sure sure' db { db with queue := q }) ∨
    (q = finish db.queue it.id false ∧ w = some (it.text.map M.embed) ∧ current ≠ none ∧
      it.version = current ∧ blocked = false ∧ it.oversized = false) := by
  cases h with
  | skipped _ => exact .inl ⟨rfl, requeued_same hsure⟩
  | dead _ =>
    have hg := (keeps_finish db.queue it.id true).grows
    exact .inl ⟨rfl, rfl, rfl, rfl, hg, fun _ _ hw _ h => h.finish_dead hw hsure⟩
  | released b hr => exact .inl ⟨rfl, requeued_release hsure hr hpend⟩
  | unchecked hv =>
    have hg := (keeps_finish db.queue it.id false).grows
    refine .inl ⟨rfl, rfl, rfl, rfl, hg, fun _ _ _ _ h => ?_⟩
    exact h.finish_done (fun j _ e _ hs => hread hv (e ▸ hs)) hsure
  | written hsome hver hb hov => exact .inr ⟨rfl, rfl, hsome, hver, hb, hov⟩

end Requeued

omit [DecidableEq K] in
/-- Being touched depends on the jobs only through their ids. -/
theorem TouchedRow.grows {t : Txn K δ P} (h : TouchedRow text db t k) (hd : t.Drops db.queue)
    (hrow : ∀ r, db.rows.get k = some r → db'.rows.get k = some r)
    (hg : Queue.Grows db.queue db'.queue) : TouchedRow text db' t k := by
  obtain ⟨htr, ⟨r, d, hr, hm⟩, hj, hdd⟩ := h
  refine ⟨htr, ⟨r, d, hrow r hr, hm⟩, fun j hj' hjk hn => ?_, hdd⟩
  rcases hg.new j hj' with ⟨j₀, hj₀, e, es, -⟩ | hid
  · exact hj j₀ hj₀ (by rw [es, hjk]) (e ▸ hn)
  · have := hd.issued _ hn
    omega

theorem Relied.requeued (hR : Relied text good sure db) (h : Requeued sure sure' db db') :
    Relied text good sure' db' where
  settled := by
    intro k r hr
    rw [h.rows] at hr
    exact (hR.settled k r hr).imp_right (h.stands [] [] (withheld_nil _) k)
  covered := by
    intro x t ht k hk r hr
    rw [h.txns] at ht
    rw [h.rows] at hr
    have hd := hR.drops x t ht
    rcases hR.covered x t ht k hk r hr with hg | ho | hs | hto
    · exact .inl hg
    · exact .inr (.inl ho)
    · exact .inr (.inr (.inl (h.stands _ _ (withheld_of_drops ht hd) k hs)))
    · exact .inr (.inr (.inr (hto.grows hd (fun r hr => by rw [h.rows]; exact hr) h.grows)))
  drops := fun x t ht => (hR.drops x t (h.txns ▸ ht)).grows h.grows
  locks := hR.locks.mono fun x t ht => h.txns ▸ ht
  stamped := by
    refine ⟨fun k r hr => ?_, fun x t ht => ?_, fun x t ht => hR.stamped.mine x t (h.txns ▸ ht)⟩
    · rw [Db.Past, h.txns, h.nextXid]
      exact hR.stamped.rows k r (h.rows ▸ hr)
    · rw [h.nextXid]
      exact hR.stamped.started x t (h.txns ▸ ht)

/-- A row nobody else has written is written, with a version of its own; the other rows rely on what
    they did. -/
theorem Relied.wrote (hR : Relied text good sure db) {r₀ : Row δ P} {f : P → P}
    (hr₀ : db.rows.get k = some r₀) (hb : db.shareBlocked k = false) (hg : Queue.Grows db.queue q)
    (hrow : good { r₀ with cols := f r₀.cols, xmin := db.nextXid } ∨ Stands q sure' [] [] k)
    (hstands : ∀ dropped droppedDead, Withheld db dropped droppedDead → ∀ k' ≠ k,
      Stands db.queue sure dropped droppedDead k' → Stands q sure' dropped droppedDead k') :
    Relied text good sure' { writeVector db k f with queue := q } := by
  -- no open transaction holds the key
  have hfree : ∀ x t, db.txns.get x = some t → t.mine.get k = none := by
    intro x t ht
    simp only [Db.shareBlocked, hr₀, isSome_some, Bool.true_and] at hb
    simpa using Table.any_eq_false_iff.mp hb x t ht
  have hsame : ∀ k', k' ≠ k →
      (db.rows.adjust k fun r => { r with cols := f r.cols, xmin := db.nextXid }).get k' =
      db.rows.get k' := by
    intro k' hne
    rw [Table.get_adjust, if_neg hne]
  have hnew : ∀ r, (db.rows.adjust k fun r =>
      { r with cols := f r.cols, xmin := db.nextXid }).get k = some r →
      r = { r₀ with cols := f r₀.cols, xmin := db.nextXid } := by
    intro r hr
    rw [Table.get_adjust, if_pos rfl, hr₀] at hr
    exact (Option.some.inj hr).symm
  refine ⟨?_, ?_, fun x t ht => (hR.drops x t ht).grows hg, hR.locks.mono fun x t ht => ht, ?_⟩
  · intro k' r hr
    by_cases e : k' = k
    · subst e
      rw [hnew r hr]
      exact hrow
    · exact (hR.settled k' r ((hsame k' e).symm.trans hr)).imp_right
        (hstands [] [] (withheld_nil _) k' e)
  · intro x t ht k' hk' r hr
    have e : k' ≠ k := fun e => hk' (e ▸ hfree x t ht)
    have hview : (t.table x db.rows).get k' = some r := by
      obtain ⟨p, hp⟩ := ne_none_iff_exists'.mp hk'
      rw [table_get_held hp] at hr ⊢
      cases htr : t.trunc with
      | true => simpa [htr] using hr
      | false =>
        simp only [htr, Bool.false_eq_true, if_false] at hr ⊢
        exact (hsame k' e) ▸ hr
    have hd := hR.drops x t ht
    rcases hR.covered x t ht k' hk' r hview with hgood | ho | hs | hto
    · exact .inl hgood
    · exact .inr (.inl ho)
    · exact .inr (.inr (.inl (hstands _ _ (withheld_of_drops ht hd) k' e hs)))
    · exact .inr (.inr (.inr (hto.grows hd (fun r hr => (hsame k' e).trans hr) hg)))
  · refine ⟨fun k' r hr => ?_, fun x t ht => Nat.lt_succ_of_lt (hR.stamped.started x t ht),
      hR.stamped.mine⟩
    by_cases e : k' = k
    · subst e
      rw [hnew r hr]
      refine ⟨Nat.lt_succ_self _, ?_⟩
      by_contra hopen
      obtain ⟨t, ht⟩ := ne_none_iff_exists'.mp hopen
      exact Nat.lt_irrefl _ (hR.stamped.started _ t ht)
    · obtain ⟨hlt, hended⟩ := hR.stamped.rows k' r ((hsame k' e).symm.trans hr)
      exact ⟨Nat.lt_succ_of_lt hlt, hended⟩

/-- What an item has read holds of the row with its version. -/
def ReadFrom (text : δ → Option T) (db : Db K δ P) (it : Item K T Nat) : Prop :=
  ∀ v, it.version = some v → db.Seen it.pk v fun r => it.oversized = false → it.text = text r.doc

variable {bytes : T → Nat} {ids : List Nat} {items : List (Item K T Nat)}

/-- An item of a claim has read the row of its key. -/
theorem Claimed.readFrom (hC : Claimed bytes false (readRow text db.rows) db ids q items)
    (hS : db.Stamped) {it : Item K T Nat} (hit : it ∈ items) : ReadFrom text db it := by
  intro v hv
  obtain ⟨-, j, -, rfl, -⟩ := hC.taken it hit
  rw [Item.ofRead_version] at hv
  obtain ⟨o, ho, rfl⟩ := map_eq_some_iff.mp hv
  obtain ⟨r, hr, rfl⟩ := map_eq_some_iff.mp ho
  refine ⟨hS.rows _ r hr, fun r' hr' _ hov => ?_⟩
  rw [Item.ofRead_pk, hr] at hr'
  cases hr'
  rw [ho] at hov ⊢
  exact Item.ofRead_text hov

/-- Jobs are claimed and read. -/
theorem Relied.claim (hR : Relied text good sure db)
    (hC : Claimed bytes false (readRow text db.rows) db ids q items)
    (hmind : ∀ j ∈ db.queue.jobs, j.id ∈ ids → db.rows.get j.slot.pk = none →
      ∀ x t, db.txns.get x = some t → ∀ r, (t.table x db.rows).get j.slot.pk = some r →
        rowSlot j.slot.pk ∈ t.own ∨ good r) :
    Relied text good (Minded items) { db with queue := q } := by
  have hread : ∀ j : Job K, db.rows.get j.slot.pk ≠ none → readRow text db.rows j.slot ≠ none := by
    intro j hj
    simpa [readRow] using hj
  refine ⟨?_, ?_, fun x t ht => (hR.drops x t ht).grows hC.keeps.grows,
    hR.locks.mono fun x t ht => ht, ⟨hR.stamped.rows, hR.stamped.started, hR.stamped.mine⟩⟩
  · intro k r hr
    refine (hR.settled k r hr).imp_right fun hs => hC.stands (withheld_nil _) hs ?_
    exact fun j _ _ hjk => hread j (by rw [hjk]; exact fun e => by rw [e] at hr; cases hr)
  · intro x t ht k hk r hr
    have hd := hR.drops x t ht
    rcases hR.covered x t ht k hk r hr with hg | ho | hs | hto
    · exact .inl hg
    · exact .inr (.inl ho)
    · -- unless a job of an absent key was claimed, the key keeps what it relied on
      by_cases habs : ∃ j ∈ db.queue.jobs, j.id ∈ ids ∧ j.slot.pk = k ∧
          db.rows.get j.slot.pk = none
      · obtain ⟨j, hj, hi, rfl, hnone⟩ := habs
        rcases hmind j hj hi hnone x t ht r hr with ho | hg
        · exact .inr (.inl ho)
        · exact .inl hg
      · refine .inr (.inr (.inl (hC.stands (withheld_of_drops ht hd) hs ?_)))
        exact fun j hj hi hjk => hread j fun hnone => habs ⟨j, hj, hi, hjk, hnone⟩
    · exact .inr (.inr (.inr (hto.grows hd (fun _ h => h) hC.keeps.grows)))

/-! ## 3. Statements -/

section Exec

variable [Inhabited P] {trg : Triggers K δ} {x : Nat} {t : Txn K δ P} {st : Stmt K δ}
  {r : Row δ P}

theorem Stands.exec (h : Stands db.queue sure t.dropped t.droppedDead k) (hst : st ≠ .truncate)
    (hl : ∀ c ∈ trg.fire (t.table x db.rows) st, c.leaves k) :
    Stands db.queue sure (t.exec trg x db st).dropped (t.exec trg x db st).droppedDead k := by
  obtain ⟨-, hj, hd⟩ := leaves_exec trg hst hl
  rcases h with ⟨d, hm, hk, hn⟩ | ⟨j, hm, hk, hn, hs⟩
  · exact .inl ⟨d, hm, hk, hd d hk hn⟩
  · exact .inr ⟨j, hm, hk, hj j hm hk hn, hs⟩

/-- A statement that leaves a key's jobs alone, and touches its row at most in place. -/
theorem CoveredBy.exec (h : CoveredBy text good sure db t k r) (hst : st ≠ .truncate)
    (hl : ∀ c ∈ trg.fire (t.table x db.rows) st, c.leaves k)
    (hm : ∀ d, t.mine.get k = some (.updated d) → ∃ d',
      (t.exec trg x db st).mine.get k = some (.updated d') ∧ text d' = text d) :
    CoveredBy text good sure db (t.exec trg x db st) k r := by
  obtain ⟨hown, hjobs, hdead⟩ := leaves_exec trg hst hl
  rcases h with hg | ho | hs | ⟨htr, ⟨r₁, d₁, hr₁, hm₁, hd₁⟩, hj, hdd⟩
  · exact .inl hg
  · exact .inr (.inl (hown ho))
  · exact .inr (.inr (.inl (hs.exec hst hl)))
  · obtain ⟨d', hm', hd'⟩ := hm d₁ hm₁
    refine .inr (.inr (.inr ⟨?_, ⟨r₁, d', hr₁, hm', hd'.trans hd₁⟩, ?_, ?_⟩))
    · exact (trunc_exec_of_ne hst).trans htr
    · exact fun j hj' hjk => hjobs j hj' hjk (hj j hj' hjk)
    · intro d hd hdk
      exact hdead d hdk (fun h => hdd d h hdk) hd

/-- A committed row that a transaction has not written before, updated in place with its text. -/
theorem Relied.touched_exec (hR : Relied text good sure db) (hx : db.txns.get x = some t)
    (hst : st ≠ .truncate) (hl : ∀ c ∈ trg.fire (t.table x db.rows) st, c.leaves k)
    (hm : t.mine.get k = none) {r₀ : Row δ P} (hr₀ : (t.table x db.rows).get k = some r₀)
    {d : δ} (hd : text d = text r₀.doc)
    (hp : (t.exec trg x db st).mine.get k = some (.updated d)) :
    TouchedRow text db (t.exec trg x db st) k := by
  obtain ⟨-, hjobs, hdead⟩ := leaves_exec trg hst hl
  obtain ⟨htf, hr₀⟩ := row_of_free hm hr₀
  refine ⟨(trunc_exec_of_ne hst).trans htf, ⟨r₀, d, hr₀, hp, hd⟩,
    fun j hj hjk => ?_, fun d hd hdk => ?_⟩
  · refine hjobs j hj hjk fun hd => ?_
    rcases (hR.drops x t hx).dropped j hj hd with h | h
    · rw [htf] at h
      cases h
    · exact h (by rw [hjk, hm])
  · refine hdead d hdk (fun h => ?_) hd
    rcases (hR.drops x t hx).droppedDead d h with h | h
    · rw [htf] at h
      cases h
    · exact h (by rw [hdk, hm])

/-- The row a statement leaves under a key its transaction holds. -/
theorem Relied.covered_exec [BEq δ] (hR : Relied text good sure db)
    (hO : Owed text good) (hT : RowTriggers text Orderly trg)
    (hpend : ∀ j ∈ db.queue.jobs, j.claimed = false → sure j.id)
    (hx : db.txns.get x = some t) (hok : st.ok (t.table x db.rows) = true)
    (hst : st ≠ .truncate) (hone : oneKey st = true)
    (hren : ∀ chs, st = .update chs → Rendered text (images (t.table x db.rows) chs))
    (hk : (t.exec trg x db st).mine.get k ≠ none)
    (hr : ((t.exec trg x db st).table x db.rows).get k = some r) :
    CoveredBy text good sure db (t.exec trg x db st) k r := by
  have hadm : ∀ chs, st = .update chs → Orderly (images (t.table x db.rows) chs) := by
    intro chs e
    subst e
    exact orderly_of_oneKey hok hone
  have htr : (t.exec trg x db st).trunc = t.trunc := trunc_exec_of_ne hst
  obtain ⟨p, hp⟩ := ne_none_iff_exists'.mp hk
  rw [table_get_held hp, htr] at hr
  rcases exec_cases hT hok hst hadm hren hp with ⟨hm, -, hl⟩ | hsees | rfl | ⟨d, rfl, hd, -⟩ |
    ⟨r₀, d, hr₀, hd, rfl, hl⟩
  · -- the statement did not concern the key
    have hr' : (t.table x db.rows).get k = some r := by
      rw [table_get_held hm]
      exact hr
    refine (hR.covered x t hx k (by simp [hm]) r hr').exec hst hl fun d hd => ⟨d, ?_, rfl⟩
    rw [hp, ← hm, hd]
  · -- enqueued: by the transaction, or a pending job was there
    rcases sees_iff.mp hsees with ho | ⟨j, hj, hp', hs, hn⟩
    · exact .inr (.inl ho)
    · exact .inr (.inr (.inl (.inr ⟨j, hj, by rw [hs]; rfl, hn, hpend j hj hp'⟩)))
  · cases hr
  · cases hr
    exact .inl (hO.fresh _ hd rfl)
  · -- updated in place with the text it had
    cases hm : t.mine.get k with
    | none =>
      refine .inr (.inr (.inr (hR.touched_exec hx hst hl hm hr₀ hd ?_)))
      rw [hp]
      simp [Txn.changed, hm]
    | some p₀ =>
      -- held before: the row has the text and the columns it had
      have hsame : r.doc = d ∧ r.cols = r₀.cols := by
        have hr₀' := hr₀
        rw [table_get_held hm] at hr₀'
        cases p₀ with
        | updated d₀ =>
          simp only [Txn.changed, if_true, hm] at hr
          obtain ⟨r₁, hr₁, rfl⟩ := map_eq_some_iff.mp hr₀'
          obtain ⟨r₂, hr₂, rfl⟩ := map_eq_some_iff.mp hr
          rw [hr₁] at hr₂
          cases hr₂
          exact ⟨rfl, rfl⟩
        | replaced row =>
          simp only [Txn.changed, if_true, hm, Priv.apply] at hr hr₀'
          rw [hr₀'] at hr
          cases hr
          exact ⟨rfl, rfl⟩
      have hc : CoveredBy text good sure db t k r :=
        (hR.covered x t hx k (by simp [hm]) r₀ hr₀).imp_left
          (hO.congr _ _ (by rw [hsame.1, hd]) hsame.2)
      refine hc.exec hst hl fun d₀ hd₀ => ⟨d, ?_, ?_⟩
      · rw [hp]
        simp [Txn.changed, hd₀]
      · rw [table_get_held hd₀] at hr₀
        obtain ⟨r₂, -, rfl⟩ := map_eq_some_iff.mp hr₀
        exact hd

end Exec

/-! ## 4. Commits -/

section Commit

variable {x : Nat} {t : Txn K δ P} {r : Row δ P} {y : Nat} {u : Txn K δ P}

/-- After the commit a key relies on what the transaction did not delete. -/
theorem Stands.commit {dropped : List Nat} {droppedDead : List (Job K)}
    (h : Stands q sure dropped droppedDead k)
    (hj : ∀ j ∈ q.jobs, j.slot.pk = k → j.id ∉ dropped → j.id ∉ t.dropped)
    (hd : ∀ d ∈ q.dead, d.slot.pk = k → d ∉ droppedDead → d ∉ t.droppedDead) :
    Stands (t.commitQueue q) sure dropped droppedDead k := by
  obtain ⟨hjobs, hdead⟩ := commitQueue_kept t q
  rcases h with ⟨d, hm, hk, hn⟩ | ⟨j, hm, hk, hn, hs⟩
  · exact .inl ⟨d, hdead d hm (hd d hm hk hn), hk, hn⟩
  · exact .inr ⟨j, hjobs j hm (hj j hm hk hn), hk, hn, hs⟩

variable (hR : Relied text good sure db) (hx : db.txns.get x = some t)
include hR hx

omit [DecidableEq K] in
/-- A transaction that has not truncated the table has deleted no job of a key it does not hold. -/
theorem Relied.undropped (htr : t.trunc = false) (hk : t.mine.get k = none) :
    (∀ j ∈ db.queue.jobs, j.slot.pk = k → j.id ∉ t.dropped) ∧
      ∀ d ∈ t.droppedDead, d.slot.pk ≠ k := by
  refine ⟨fun j hj hjk hdr => ?_, fun d hd hdk => ?_⟩
  · rcases (hR.drops x t hx).dropped j hj hdr with h | h
    · rw [htr] at h
      cases h
    · exact h (by rw [hjk, hk])
  · rcases (hR.drops x t hx).droppedDead d hd with h | h
    · rw [htr] at h
      cases h
    · exact h (by rw [hdk, hk])

/-- A committed row has what it is owed or something to rely on. -/
theorem Relied.settled_commit
    (hcongr : ∀ r r' : Row δ P, text r'.doc = text r.doc → r'.cols = r.cols → good r → good r')
    (hpend : ∀ j ∈ (t.commitQueue db.queue).jobs, j.claimed = false → sure j.id)
    (hr : (t.table x db.rows).get k = some r) :
    good r ∨ Stands (t.commitQueue db.queue) sure [] [] k := by
  -- with no job of the key deleted, what held of the committed row still does
  have keep : ∀ r₀, db.rows.get k = some r₀ → text r.doc = text r₀.doc → r.cols = r₀.cols →
      (∀ j ∈ db.queue.jobs, j.slot.pk = k → j.id ∉ t.dropped) →
      (∀ d ∈ t.droppedDead, d.slot.pk ≠ k) →
      good r ∨ Stands (t.commitQueue db.queue) sure [] [] k := by
    intro r₀ hr₀ hdoc hcols hj hdd
    rcases hR.settled k r₀ hr₀ with hg | hs
    · exact .inl (hcongr _ _ hdoc hcols hg)
    · exact .inr (hs.commit (fun j hj' hjk _ => hj j hj' hjk) fun d _ hdk _ h => hdd d h hdk)
  cases hk : t.mine.get k with
  | none =>
    obtain ⟨htr, hr⟩ := row_of_free hk hr
    obtain ⟨hj, hdd⟩ := hR.undropped hx htr hk
    exact keep r hr rfl rfl hj hdd
  | some p =>
    rcases hR.covered x t hx k (by simp [hk]) r hr with hg | ho | hs |
      ⟨htr, ⟨r₀, d, hr₀, hm, hd⟩, hj, hdd⟩
    · exact .inl hg
    · obtain ⟨j, hj, hp, hs⟩ := pending_commitQueue (q := db.queue) ho
      exact .inr (.inr ⟨j, hj, by rw [hs]; rfl, not_mem_nil, hpend j hj hp⟩)
    · refine .inr ?_
      rcases hs.commit (t := t) (fun _ _ _ h => h) fun _ _ _ h => h with
        ⟨d, hm, hdk, -⟩ | ⟨j, hm, hjk, -, hs⟩
      · exact .inl ⟨d, hm, hdk, not_mem_nil⟩
      · exact .inr ⟨j, hm, hjk, not_mem_nil, hs⟩
    · rw [table_get_held hm, htr] at hr
      obtain ⟨r₁, hr₁, rfl⟩ := map_eq_some_iff.mp hr
      rw [show db.rows.get k = some r₁ from hr₁] at hr₀
      cases hr₀
      exact keep r₀ hr₁ hd rfl hj hdd

variable (hu : db.txns.get y = some u) (hyx : y ≠ x) (hk : u.mine.get k ≠ none)
include hu hyx hk

omit [DecidableEq K] in
/-- What another transaction holds is not the committing one's. -/
theorem Relied.others_commit :
    (t.table x db.rows).get k = db.rows.get k ∧
      (∀ j ∈ db.queue.jobs, j.slot.pk = k → j.id ∉ t.dropped) ∧
      ∀ d ∈ t.droppedDead, d.slot.pk ≠ k := by
  obtain ⟨htr, hfree⟩ := hR.locks.free hx hu hyx.symm hk
  refine ⟨?_, hR.undropped hx htr hfree⟩
  rw [table_get_free hfree, htr]
  rfl

/-- What the other transactions hold is covered as before. -/
theorem Relied.covered_commit (hr : (u.table y (t.table x db.rows)).get k = some r) :
    CoveredBy text good sure { db with
      rows := t.table x db.rows
      queue := t.commitQueue db.queue
      txns := db.txns.erase x } u k r := by
  obtain ⟨hrow, hj, hdd⟩ := hR.others_commit hx hu hyx hk
  rw [table_get_congr (.inr hk) fun _ => hrow] at hr
  rcases hR.covered y u hu k hk r hr with hgood | ho | hs | hto
  · exact .inl hgood
  · exact .inr (.inl ho)
  · exact .inr (.inr (.inl (hs.commit (fun j hj' hjk _ => hj j hj' hjk)
      fun d _ hdk _ h => hdd d h hdk)))
  · exact .inr (.inr (.inr (hto.grows (hR.drops y u hu) (fun r hr => hrow.trans hr)
      (grows_commitQueue t db.queue))))

end Commit

/-! ## 5. Writers -/

variable {trg : Triggers K δ} {w : WriterAct K δ}

/-- **Steps of writers.** Pending jobs are sure, now and after a commit. -/
theorem Relied.writer [BEq δ] [Inhabited P]
    (hR : Relied text good sure db) (hO : Owed text good) (hT : RowTriggers text Orderly trg)
    (hone : ∀ x st, w = .exec x st → oneKey st = true)
    (hren : ∀ x st t, w = .exec x st → db.txns.get x = some t → ∀ chs, st = .update chs →
      Rendered text (images (t.table x db.rows) chs))
    (hpend : ∀ q, Queue.Grows db.queue q → ∀ j ∈ q.jobs, j.claimed = false → sure j.id)
    (hw : db.writer trg w = some db') : Relied text good sure db' := by
  have hlocks := hR.locks.writer hw
  have hstamped := hR.stamped.writer hw
  rcases writer_cases hw with ⟨-, rfl⟩ | ⟨x, st, t, rfl, hx, -, hok, rfl⟩ | ⟨x, t, -, hx, rfl⟩ |
    ⟨x, t, -, -, rfl⟩
  · refine ⟨hR.settled, fun x t ht k hk r hr => ?_, fun x t ht => ?_, hlocks, hstamped⟩
    · rcases Table.get_put_some ht with ⟨-, rfl⟩ | ht
      · exact absurd rfl hk
      · exact hR.covered x t ht k hk r hr
    · rcases Table.get_put_some ht with ⟨-, rfl⟩ | ht
      · exact .fresh _
      · exact hR.drops x t ht
  · refine ⟨hR.settled, fun y u hu k hk r hr => ?_, fun y u hu => ?_, hlocks, hstamped⟩
    · rcases Table.get_put_some hu with ⟨rfl, rfl⟩ | hu
      · by_cases hst : st = .truncate
        · subst hst
          rw [mine_exec] at hk
          exact absurd rfl hk
        · exact hR.covered_exec hO hT (hpend _ (Queue.Grows.refl _)) hx hok hst (hone _ _ rfl)
            (hren _ _ _ rfl hx) hk hr
      · exact hR.covered y u hu k hk r hr
    · rcases Table.get_put_some hu with ⟨rfl, rfl⟩ | hu
      · refine (hR.drops y t hx).exec fun hst k hk => ?_
        refine exec_free hT hst (fun chs e => ?_) hk
        subst e
        exact orderly_of_oneKey hok (hone _ _ rfl)
      · exact hR.drops y u hu
  · have hg := grows_commitQueue t db.queue
    refine ⟨fun k r hr => hR.settled_commit hx hO.congr (hpend _ hg) hr, fun y u hu k hk r hr => ?_,
      fun y u hu => (hR.drops y u (Table.get_erase_some hu).2).grows hg, hlocks, hstamped⟩
    obtain ⟨hyx, hu⟩ := Table.get_erase_some hu
    exact hR.covered_commit hx hu hyx hk hr
  · exact ⟨hR.settled, fun y t ht => hR.covered y t (Table.get_erase_some ht).2,
      fun y t ht => hR.drops y t (Table.get_erase_some ht).2, hlocks, hstamped⟩

/-- **Steps of writers, with no trigger but for `TRUNCATE`.** Where nothing is owed that a row does
    not have, they keep the rest. -/
theorem Relied.writer_untriggered [Inhabited P] (hR : Relied text good sure db) (hg : ∀ r, good r)
    (hT : ∀ (view : Table K (Row δ P)) st, st ≠ .truncate → trg.fire view st = [])
    (hw : db.writer trg w = some db') : Relied text good sure db' := by
  refine relied_of_all hg (fun y u hu => ?_) (hR.locks.writer hw) (hR.stamped.writer hw)
  rcases writer_cases hw with ⟨-, rfl⟩ | ⟨x, st, t, rfl, hx, -, -, rfl⟩ | ⟨x, t, -, -, rfl⟩ |
    ⟨x, t, -, -, rfl⟩
  · rcases Table.get_put_some hu with ⟨-, rfl⟩ | hu
    · exact .fresh _
    · exact hR.drops y u hu
  · rcases Table.get_put_some hu with ⟨rfl, rfl⟩ | hu
    · refine (hR.drops y t hx).exec fun hst k hk => ⟨(mine_of_exec hst hk).2, ?_⟩
      rw [hT _ _ hst]
      exact fun _ h => by cases h
    · exact hR.drops y u hu
  · exact (hR.drops y u (Table.get_erase_some hu).2).grows (grows_commitQueue t db.queue)
  · exact hR.drops y u (Table.get_erase_some hu).2

end Postvec.Managed
