import Mathlib.Data.List.Rotate
import Postvec.Extension.Discovery

/-!
# The leader's inference client

The managed leader asks its own node and the other nodes of the cluster. What it knows of them is
what the last refresh brought (`Client.refresh`). A model name stands for a route (`Client.route`),
in the order of `postvec._route` and then the embed-bridge tier; a request is tried on the nodes
that hold the route, within one deadline (`Client.predict`); and `infer` cuts a batch into requests.

What a node does with a request is a parameter of each call (`Call`). `infer_waits` is what the
retry policy rests on: if some node the refresh reached holds the route and every node that answers
succeeds, then no outcome is `dead` or `failed`.

Left out: the purpose of a request (always `Document` here), `last_routes` and the log it feeds,
error texts, and the limits on a response body, which only decide whether a node has answered.
-/

namespace Postvec.Inference

open List

open Discovery (Known retainSpaceDims widthOf conflicts retainSpaceDims_eq)
open Discovery renaming ModelInfo → Info

/-! ## 1. Errors -/

/-- The codes a node puts into `x-ravenna-error-code`. -/
inductive RavennaCode where
  | timeout | cpuOverload | gpuOutOfMemory | upstreamServiceUnavailable | internalError | unknown
  | modelNotFound | modelNotLoaded | modelDisabled | bridgePathNotFound | converterNotFound
  | upstreamAuthFailed | contextLengthExceeded | invalidInput | targetRestricted
deriving DecidableEq, Repr

inductive PvError where
  | noEndpoints
  | transport (endpoint : Text)
  | deadline
  | remote (code : RavennaCode)
  | decode
  | unknownModel (name : Text)
  | noEmbedPath (model : Text)
  | noConvertPath (source target : Text)
  | invalidInput
  | internal
deriving DecidableEq, Repr

inductive ErrorClass where
  | transient
  | config
  | poisonRow
  | permanent
deriving DecidableEq, Repr

def RavennaCode.class : RavennaCode → ErrorClass
  | .timeout | .cpuOverload | .gpuOutOfMemory | .upstreamServiceUnavailable | .internalError
  | .unknown => .transient
  | .modelNotFound | .modelNotLoaded | .modelDisabled | .bridgePathNotFound
  | .converterNotFound => .config
  | .upstreamAuthFailed => .config
  | .contextLengthExceeded => .poisonRow
  | .invalidInput | .targetRestricted => .permanent

/-- `PvError::class` -/
def PvError.class : PvError → ErrorClass
  | .noEndpoints => .config
  | .transport _ | .deadline => .transient
  | .remote code => code.class
  | .decode | .invalidInput => .permanent
  | .unknownModel _ | .noEmbedPath _ | .noConvertPath _ _ => .permanent
  | .internal => .permanent

/-! ## 2. The inventory -/

/-- A node and the models it advertised; the client's own node is the first of the list. -/
abbrev Node := Nat × List Info

structure Client where
  nodes : List Node
  models : List Info
deriving DecidableEq

def sameSpace (a b : Info) : Bool :=
  decide (a.modelType = b.modelType) && decide (a.targetModel = b.targetModel) &&
    decide (a.targetDim = b.targetDim) && decide (a.sourceModel = b.sourceModel) &&
    decide (a.sourceDim = b.sourceDim)

/-- Inserting into the map by name: another model of the name is replaced. -/
def insertByName (m : Info) : List Info → List Info
  | [] => [m]
  | x :: xs =>
    if m.name = x.name then m :: xs
    else if m.name < x.name then m :: x :: xs
    else x :: insertByName m xs

/-- The map by name of a list, taken from its end: the first model of a name stays. -/
def unique (models : List Info) : List Info :=
  models.foldr insertByName []

/-- `constrain_models`, less the names it reports. -/
def constrainModels (c : Client) (known : Known) : Client :=
  let kept := unique (retainSpaceDims known c.models).1
  { nodes := c.nodes.map fun n =>
      (n.1, n.2.filter fun m => (kept.find? (·.name = m.name)).any fun a => sameSpace a m)
    models := kept }

/-- A refresh by the node `here`, which `answered` did answer, and the constraint that follows it in
    the same turn of the leader's loop. -/
def refresh (inventory : Nat → List Info) (here : Nat) (answered : List Nat)
    (known : Known) : Client :=
  let nodes := (here :: answered).map fun i => (i, inventory i)
  constrainModels ⟨nodes, nodes.flatMap Prod.snd⟩ known

/-! ## 3. Routes -/

def convert : Text := "convert".toList

def embedBridge : Text := "embed-bridge".toList

structure EmbedRoute where
  bridgeModel : Option Text
  targetModel : Option Text
deriving DecidableEq, Repr

/-- The order of Rust's strings, which is that of their characters. -/
def byText (a b : Text) : Ordering := if a < b then .lt else if a = b then .eq else .gt

/-- A converter that the node itself runs. -/
def isConverter (target : Text) (m : Info) : Bool :=
  decide (m.modelType = convert) && decide (m.targetModel = some target) && m.extra.provider.isNone

/-- A chain inside one node: a local embed model, a local converter from its space into `space`,
    and a bridge model to run them. -/
def bridgeOf (space : Text) (models : List Info) : Option (Text × EmbedRoute) :=
  models.findSome? fun c =>
    if isConverter space c then
      match c.sourceModel with
      | none => none
      | some source =>
        if models.any fun m => decide (m.modelType = Discovery.embed) &&
            decide (m.space = source) && m.extra.provider.isNone then
          (models.find? (·.modelType = embedBridge)).map fun b =>
            (b.name, ⟨some source, some space⟩)
        else none
    else none

/-- `Client::route` -/
def Client.route (c : Client) (name : Text) (space : Option Text) :
    Except PvError (Text × EmbedRoute) :=
  match Discovery.route byText (c.models.map Info.row) name space with
  | some m => .ok (m.route, ⟨none, none⟩)
  | none =>
    let name := space.getD name
    match c.nodes.findSome? fun n => bridgeOf name n.2 with
    | some r => .ok r
    | none => .error (.unknownModel name)

/-! ## 4. One request -/

/-- What comes back from a node, and how long it takes. A status without a code is what the
    transport makes of a node that cannot be reached. -/
inductive Answer (V : Type*) where
  | rows (decoded : Option (List V))
  | status (code : Option RavennaCode)

structure Reply (V : Type*) where
  took : Nat
  answer : Answer V

/-- The world at one request: where the round-robin cursor stands, and what each node replies. -/
structure Call (X V : Type*) where
  start : Nat
  reply : Nat → List X → Reply V

variable {X V : Type*}

/-- The node holds the model, and for a bridged route the converter. -/
def serves (model : Text) (route : EmbedRoute) (models : List Info) : Bool :=
  (models.any fun m => decide (m.name = model)) &&
    match route.bridgeModel, route.targetModel with
    | some via, some target =>
      models.any fun m => isConverter target m && decide (m.sourceModel = some via)
    | _, _ => true

/-- The loop of `Client::predict` over the nodes that are left, with the time that is left and the
    error so far. All but the last node get half of the time. -/
def predictLoop (served : List Info → Bool) (reply : Nat → Reply V) :
    Nat → PvError → List Node → Except PvError (List V)
  | _, error, [] => .error error
  | remaining, error, n :: rest =>
    if !served n.2 then predictLoop served reply remaining error rest
    else if remaining = 0 then .error error
    else
      let budget := if rest.isEmpty then remaining else remaining / 2
      let r := reply n.1
      if budget < r.took then predictLoop served reply (remaining - budget) .deadline rest
      else
        match r.answer with
        | .rows (some rows) => .ok rows
        | .rows none => .error .decode
        | .status code =>
          let error := .remote (code.getD .internalError)
          if error.class = .poisonRow ∨ error.class = .permanent then .error error
          else predictLoop served reply (remaining - r.took) error rest

/-- `Client::predict` -/
def Client.predict (c : Client) (timeout : Nat) (call : Call X V) (payload : List X)
    (model : Text) (route : EmbedRoute) : Except PvError (List V) :=
  predictLoop (serves model route) (fun n => call.reply n payload) timeout (.unknownModel model)
    (c.nodes.rotate call.start)

/-! ## 5. A batch -/

/-- What the worker makes of a text. -/
inductive Outcome (V : Type*) where
  | vector (v : V)
  | retry
  | dead
  | failed
deriving DecidableEq, Repr

/-- The column a vector is for: how long it must be, and which vectors are finite. -/
structure Column (V : Type*) where
  width : V → Nat
  finite : V → Bool
  dim : Nat

def Column.outcome (col : Column V) (v : V) : Outcome V :=
  if col.width v ≠ col.dim then .dead else if !col.finite v then .dead else .vector v

def PvError.outcome (e : PvError) : Outcome V :=
  match e.class with
  | .permanent => .failed
  | .poisonRow => .dead
  | _ => .retry

/-- The request timed out, here or on the node. -/
def PvError.timedOut : PvError → Bool
  | .deadline => true
  | .remote .timeout => true
  | _ => false

/-- How many texts a request has at most. -/
def requestWidth (dim : Nat) : Nat := min 512 (max 1 (96 * 1024 * 1024 / (max dim 1 * 96 + 256)))

/-- One range of the batch, bisected where the error may be one row's; with the number of requests
    made so far. -/
def inferRange (ask : Nat → List X → Except PvError (List V)) (col : Column V) (converting : Bool)
    (calls : Nat) (range : List X) : List (Outcome V) × Nat :=
  if range.isEmpty then ([], calls)
  else
    match ask calls range with
    | .ok rows =>
      if rows.length = range.length then (rows.map col.outcome, calls + 1)
      else (range.map fun _ => .retry, calls + 1)
    | .error e =>
      if h : 1 < range.length ∧
          (e.class = .poisonRow ∨ converting = true ∧ e.timedOut = true) then
        let mid := range.length / 2
        let left := inferRange ask col converting (calls + 1) (range.take mid)
        let right := inferRange ask col converting left.2 (range.drop mid)
        (left.1 ++ right.1, right.2)
      else (range.map fun _ => e.outcome, calls + 1)
termination_by range.length
decreasing_by
  · rw [length_take]
    omega
  · rw [length_drop]
    omega

/-- The ranges of the batch, in order. -/
def inferRanges (ask : Nat → List X → Except PvError (List V)) (col : Column V)
    (converting : Bool) : Nat → List (List X) → List (Outcome V)
  | _, [] => []
  | calls, range :: ranges =>
    let r := inferRange ask col converting calls range
    r.1 ++ inferRanges ask col converting r.2 ranges

/-- What is to be inferred: texts by a model name, or vectors by a converter. -/
inductive Target where
  | embed (model : Text) (space : Option Text)
  | converter (model : Text)
deriving DecidableEq, Repr

def Client.routeFor (c : Client) : Target → Except PvError (Text × EmbedRoute)
  | .embed model space => c.route model space
  | .converter model => .ok (model, ⟨none, none⟩)

def Target.converting : Target → Bool
  | .embed .. => false
  | .converter _ => true

/-- `infer` -/
def infer (c : Client) (timeout : Nat) (calls : Nat → Call X V) (col : Column V) (target : Target)
    (payload : List X) : List (Outcome V) :=
  match c.routeFor target with
  | .error e =>
    payload.map fun _ => match e.class with
      | .permanent => .failed
      | _ => .retry
  | .ok (model, route) =>
    inferRanges (fun n range => c.predict timeout (calls n) range model route) col
      target.converting 0 (payload.toChunks (requestWidth col.dim))

/-! ## 6. A consistent fleet -/

/-- The nodes describe a model of one name alike, and agree on the width of a space with one another
    and with the database. -/
structure Consistent (inventory : Nat → List Info) (known : Known) : Prop where
  named : ∀ i j, ∀ m ∈ inventory i, ∀ m' ∈ inventory j, m.name = m'.name → sameSpace m m' = true
  widths : ∀ i j, ∀ m ∈ inventory i, ∀ m' ∈ inventory j, m.space = m'.space →
    ∀ d ∈ m.claims, ∀ d' ∈ m'.claims, d = d'
  known : ∀ i, ∀ m ∈ inventory i, ∀ d ∈ m.claims, ∀ w ∈ known.lookup m.space, w.1 = d

/-- Where the widths agree, no model is dropped. -/
theorem retainSpaceDims_eq_self {models : List Info} {known : Known}
    (hw : ∀ m ∈ models, ∀ m' ∈ models, m.space = m'.space →
      ∀ d ∈ m.claims, ∀ d' ∈ m'.claims, d = d')
    (hk : ∀ m ∈ models, ∀ d ∈ m.claims, ∀ w ∈ known.lookup m.space, w.1 = d) :
    (retainSpaceDims known models).1 = models := by
  rw [(retainSpaceDims_eq known models).1, filter_eq_self]
  intro m hm
  cases hc : m.claims with
  | none => simp [conflicts, hc]
  | some d =>
    suffices hwidth : widthOf known models m.space = some d by simp [conflicts, hc, hwidth]
    cases hl : known.lookup m.space with
    | some w => simp [widthOf, hl, hk m hm d hc w hl]
    | none =>
      rw [widthOf, hl]
      show models.findSome? _ = some d
      cases hf : models.findSome? fun a => if a.space = m.space then a.claims else none with
      | none => simpa [hc] using List.findSome?_eq_none_iff.mp hf m hm
      | some d' =>
        obtain ⟨a, ha, hd'⟩ := exists_of_findSome?_eq_some hf
        rw [Option.ite_none_right_eq_some] at hd'
        rw [hw a ha m hm hd'.1 d' hd'.2 d hc]

theorem mem_insertByName {m x : Info} : ∀ {models : List Info},
    x ∈ insertByName m models → x = m ∨ x ∈ models
  | [], h => .inl (mem_singleton.mp h)
  | y :: ys, h => by
    rw [insertByName] at h
    split at h
    · exact (mem_cons.mp h).imp_right fun h => mem_cons_of_mem y h
    · split at h
      · exact mem_cons.mp h
      · rcases mem_cons.mp h with rfl | h
        · exact .inr mem_cons_self
        · exact (mem_insertByName h).imp_right fun h => mem_cons_of_mem y h

/-- The map holds, for a name, what was inserted last. -/
theorem find?_insertByName {m : Info} (n : Text) : ∀ (models : List Info),
    (insertByName m models).find? (fun x => decide (x.name = n)) =
      if m.name = n then some m else models.find? (fun x => decide (x.name = n))
  | [] => by simp [insertByName, List.find?_cons]; split <;> simp_all
  | x :: xs => by
    rw [insertByName]
    split
    · rename_i e
      simp only [List.find?_cons, e]
      by_cases hn : x.name = n <;> simp [hn]
    · rename_i hne
      split
      · simp only [List.find?_cons]
        by_cases hn : m.name = n <;> simp [hn]
      · simp only [List.find?_cons, find?_insertByName n xs]
        by_cases hx : x.name = n
        · have hm : m.name ≠ n := fun e => hne (e.trans hx.symm)
          simp [hx, hm]
        · simp [hx]

/-- The model kept of a name is the first of the list. -/
theorem find?_unique (n : Text) : ∀ (models : List Info),
    (unique models).find? (fun x => decide (x.name = n)) =
    models.find? (fun x => decide (x.name = n))
  | [] => rfl
  | m :: ms => by
    show (insertByName m (unique ms)).find? _ = _
    rw [find?_insertByName, find?_unique n ms, List.find?_cons]
    by_cases hn : m.name = n <;> simp [hn]

variable {models : List Info}

theorem mem_of_mem_unique {x : Info} (h : x ∈ unique models) : x ∈ models := by
  induction models with
  | nil => cases h
  | cons m ms ih =>
    rcases mem_insertByName h with rfl | h
    · exact mem_cons_self
    · exact mem_cons_of_mem m (ih h)

theorem name_unique {x : Info}
    (h : x ∈ models) : ∃ a ∈ unique models, a.name = x.name := by
  cases hf : (unique models).find? fun a => decide (a.name = x.name) with
  | none =>
    rw [find?_unique] at hf
    simpa using List.find?_eq_none.mp hf x h
  | some a => exact ⟨a, mem_of_find?_eq_some hf, by simpa using List.find?_some hf⟩

section Refresh

variable {inventory : Nat → List Info} {known : Known}

/-- Of a consistent fleet a refresh keeps every node that answered as it is. -/
theorem refresh_spec (here : Nat) (answered : List Nat) (h : Consistent inventory known) :
    (refresh inventory here answered known).nodes =
        (here :: answered).map (fun i => (i, inventory i)) ∧
      (refresh inventory here answered known).models =
        unique ((here :: answered).flatMap inventory) := by
  have hfrom : ∀ m ∈ (here :: answered).flatMap inventory, ∃ i, m ∈ inventory i := by
    intro m hm
    obtain ⟨i, -, hi⟩ := mem_flatMap.mp hm
    exact ⟨i, hi⟩
  have hall : (((here :: answered).map fun i => ((i, inventory i) : Node)).flatMap Prod.snd) =
      (here :: answered).flatMap inventory := by
    rw [flatMap_map]
  have hkeep : (retainSpaceDims known ((here :: answered).flatMap inventory)).1 =
      (here :: answered).flatMap inventory := by
    refine retainSpaceDims_eq_self ?_ ?_
    · intro m hm m' hm'
      obtain ⟨i, hi⟩ := hfrom m hm
      obtain ⟨j, hj⟩ := hfrom m' hm'
      exact h.widths i j m hi m' hj
    · intro m hm
      obtain ⟨i, hi⟩ := hfrom m hm
      exact h.known i m hi
  refine ⟨?_, ?_⟩
  · simp only [refresh, constrainModels, hall, hkeep, map_map]
    refine map_congr_left fun i hi => ?_
    refine Prod.ext rfl (filter_eq_self.mpr fun m hm => ?_)
    -- the model of this name that is kept describes the same space
    obtain ⟨a, ha, hn⟩ := name_unique (mem_flatMap.mpr ⟨i, hi, hm⟩)
    cases hf : (unique ((here :: answered).flatMap inventory)).find? (·.name = m.name) with
    | none => exact absurd hn (by simpa using List.find?_eq_none.mp hf a ha)
    | some b =>
      obtain ⟨j, hj⟩ := hfrom b (mem_of_mem_unique (mem_of_find?_eq_some hf))
      exact h.named j i b hj m hm (by simpa using List.find?_some hf)
  · simp only [refresh, constrainModels, hall, hkeep]

end Refresh

/-! ## 7. A route that is held -/

/-- A node of these models can serve the target, by itself. -/
def holds (target : Target) (models : List Info) : Bool :=
  match target with
  | .embed model space =>
    (models.any fun m => decide (m.modelType = Discovery.embed) &&
      (decide (m.name = model) || decide (m.space = model) || decide (space = some m.space))) ||
      (bridgeOf (space.getD model) models).isSome
  | .converter model => models.any fun m => decide (m.name = model)

theorem bridgeOf_serves {space : Text} {r : Text × EmbedRoute}
    (h : bridgeOf space models = some r) : serves r.1 r.2 models = true := by
  obtain ⟨c, hc, hr⟩ := exists_of_findSome?_eq_some h
  split at hr
  · rename_i hconv
    split at hr
    · cases hr
    · rename_i source hsource
      split at hr
      · obtain ⟨b, hb, rfl⟩ := Option.map_eq_some_iff.mp hr
        rw [serves, Bool.and_eq_true]
        refine ⟨?_, ?_⟩
        · exact any_eq_true.mpr ⟨b, mem_of_find?_eq_some hb, by simp⟩
        · exact any_eq_true.mpr ⟨c, hc, by simp [hconv, hsource]⟩
      · cases hr
  · cases hr

section Routes

variable {inventory : Nat → List Info} {known : Known} {here : Nat}
  {answered : List Nat} {target : Target}

/-- **A held target has a route, and some node that was reached serves it.** -/
theorem routeFor_held (h : Consistent inventory known) {i : Nat} (hi : i ∈ here :: answered)
    (hh : holds target (inventory i) = true) :
    ∃ r, (refresh inventory here answered known).routeFor target = .ok r ∧
      ∃ n ∈ (refresh inventory here answered known).nodes, serves r.1 r.2 n.2 = true := by
  obtain ⟨hnodes, hmodels⟩ := refresh_spec here answered h
  generalize refresh inventory here answered known = c at hnodes hmodels ⊢
  have hnode : ∀ j ∈ here :: answered, (j, inventory j) ∈ c.nodes := fun j hj =>
    hnodes ▸ mem_map_of_mem hj
  cases target with
  | converter model =>
    refine ⟨(model, ⟨none, none⟩), rfl, (i, inventory i), hnode i hi, ?_⟩
    rw [serves, Bool.and_true]
    exact hh
  | embed model space =>
    show ∃ r, c.route model space = .ok r ∧ _
    unfold Client.route
    cases hr : Discovery.route byText (c.models.map Info.row) model space with
    | some x =>
      obtain ⟨m, hm, -, rfl, -⟩ := Discovery.route_spec hr
      obtain ⟨m₀, hm₀, rfl⟩ := mem_map.mp hm
      rw [hmodels] at hm₀
      obtain ⟨j, hj, hmj⟩ := mem_flatMap.mp (mem_of_mem_unique hm₀)
      refine ⟨_, rfl, (j, inventory j), hnode j hj, ?_⟩
      rw [serves, Bool.and_true]
      exact any_eq_true.mpr ⟨m₀, hmj, decide_eq_true rfl⟩
    | none =>
      have hbridge : (bridgeOf (space.getD model) (inventory i)).isSome = true := by
        rcases Bool.or_eq_true _ _ ▸ hh with hh | hh
        · -- the node's own embed model would have been a route
          exfalso
          obtain ⟨m, hm, hp⟩ := any_eq_true.mp hh
          obtain ⟨ht, he⟩ := Bool.and_eq_true _ _ ▸ hp
          obtain ⟨a, ha, hn⟩ := name_unique (mem_flatMap.mpr ⟨i, hi, hm⟩)
          obtain ⟨j, -, haj⟩ := mem_flatMap.mp (mem_of_mem_unique ha)
          have hsame := h.named j i a haj m hm hn
          simp only [sameSpace, Bool.and_eq_true, decide_eq_true_eq] at hsame
          have hspace : a.space = m.space := by
            rw [Info.space, Info.space, hsame.1.1.1.2, hn]
          have hnil := Discovery.first_eq_none hr
          have hmem : a.row.toRoute ∈
              (Discovery.routes (c.models.map Info.row)).filter
                (Discovery.eligible model space) := by
            refine mem_filter.mpr ⟨mem_map_of_mem (mem_filter.mpr ⟨?_, ?_⟩), ?_⟩
            · exact mem_map_of_mem (hmodels ▸ ha)
            · exact decide_eq_true (hsame.1.1.1.1.trans (of_decide_eq_true ht))
            · show (decide (a.name = model) || decide (a.space = model) ||
                decide (space = some a.space)) = true
              rw [hn, hspace]
              exact he
          rw [hnil] at hmem
          cases hmem
        · exact hh
      have hsome : (c.nodes.findSome? fun n => bridgeOf (space.getD model) n.2) ≠ none := by
        intro hnone
        rw [List.findSome?_eq_none_iff.mp hnone _ (hnode i hi)] at hbridge
        cases hbridge
      cases hb : c.nodes.findSome? fun n => bridgeOf (space.getD model) n.2 with
      | none => exact absurd hb hsome
      | some r =>
        obtain ⟨n, hn, hr⟩ := exists_of_findSome?_eq_some hb
        exact ⟨r, by simp [hb], n, hn, bridgeOf_serves hr⟩

end Routes

/-! ## 8. What a batch ends in -/

/-- A node that answers succeeds: `k` vectors that fit the column. A status is the transport's. -/
def Answer.Succeeds (col : Column V) (k : Nat) : Answer V → Prop
  | .rows (some vs) => vs.length = k ∧ ∀ v ∈ vs, col.width v = col.dim ∧ col.finite v = true
  | .rows none => False
  | .status code => code = none

/-- The job is written or tried again. -/
def Outcome.Waits : Outcome V → Prop
  | .vector _ | .retry => True
  | .dead | .failed => False

section Batches

variable {col : Column V} {k : Nat}

/-- Once a node was asked the error is one to wait for, and a node is asked if one serves. -/
theorem predictLoop_waits {served : List Info → Bool} {reply : Nat → Reply V}
    (hreply : ∀ n, (reply n).answer.Succeeds col k) :
    ∀ {nodes : List Node} {remaining : Nat} {error : PvError},
      error.class = .transient ∨ (0 < remaining ∧ ∃ n ∈ nodes, served n.2 = true) →
      (∃ rows, predictLoop served reply remaining error nodes = .ok rows ∧
        Answer.Succeeds col k (.rows (some rows))) ∨
      ∃ e, predictLoop served reply remaining error nodes = .error e ∧ e.class = .transient
  | [], remaining, error, h => by
    rcases h with h | ⟨-, n, hn, -⟩
    · exact .inr ⟨error, rfl, h⟩
    · cases hn
  | n :: rest, remaining, error, h => by
    unfold predictLoop
    split
    · rename_i hs
      refine predictLoop_waits hreply (h.imp_right ?_)
      rintro ⟨hpos, n', hn', hs'⟩
      refine ⟨hpos, n', ?_, hs'⟩
      rcases mem_cons.mp hn' with rfl | hn'
      · rw [hs'] at hs
        cases hs
      · exact hn'
    · split
      · rename_i hzero
        rcases h with h | ⟨hpos, -⟩
        · exact .inr ⟨error, rfl, h⟩
        · omega
      · simp only
        generalize (if rest.isEmpty then remaining else remaining / 2) = budget
        split
        · exact predictLoop_waits hreply (.inl rfl)
        · have hr := hreply n.1
          split
          · rename_i rows ha
            rw [ha] at hr
            exact .inl ⟨rows, rfl, hr⟩
          · rename_i ha
            rw [ha] at hr
            exact hr.elim
          · rename_i code ha
            rw [ha] at hr
            have hcode : code = none := hr
            subst hcode
            rw [if_neg (by decide)]
            exact predictLoop_waits hreply (.inl rfl)

theorem PvError.outcome_waits {e : PvError} (h : e.class = .transient) :
    (e.outcome : Outcome V).Waits := by
  rw [PvError.outcome, h]
  trivial

theorem Column.outcome_waits {v : V} (h : col.width v = col.dim ∧ col.finite v = true) :
    (col.outcome v).Waits := by
  rw [Column.outcome, if_neg (not_not.mpr h.1), h.2]
  trivial

/-- Every request of a batch ends in rows that fit or in an error to wait for. -/
def Asks (ask : Nat → List X → Except PvError (List V)) (col : Column V) : Prop :=
  ∀ n range,
    (∃ rows, ask n range = .ok rows ∧ Answer.Succeeds col range.length (.rows (some rows))) ∨
    ∃ e, ask n range = .error e ∧ e.class = .transient

theorem inferRange_waits {ask : Nat → List X → Except PvError (List V)} (h : Asks ask col)
    {converting : Bool} (calls : Nat) (range : List X) :
    ∀ o ∈ (inferRange ask col converting calls range).1, o.Waits := by
  induction calls, range using inferRange.induct ask col converting with
  | case1 calls range hempty =>
    rw [inferRange, if_pos hempty]
    simp
  | case2 calls range hne rows hok hlen =>
    rw [inferRange, if_neg hne, hok]
    simp only [if_pos hlen]
    rcases h calls range with ⟨rows', hok', -, hfit⟩ | ⟨e, he, -⟩
    · cases hok.symm.trans hok'
      intro o ho
      obtain ⟨v, hv, rfl⟩ := mem_map.mp ho
      exact Column.outcome_waits (hfit v hv)
    · cases hok.symm.trans he
  | case3 calls range hne rows hok hlen =>
    rw [inferRange, if_neg hne, hok]
    simp only [if_neg hlen]
    intro o ho
    obtain ⟨x, -, rfl⟩ := mem_map.mp ho
    trivial
  | case4 calls range hne e he hsplit mid left right ihl ihr =>
    rw [inferRange, if_neg hne, he]
    simp only [dif_pos hsplit]
    intro o ho
    rcases mem_append.mp ho with ho | ho
    · exact ihl o ho
    · exact ihr o ho
  | case5 calls range hne e he hsplit =>
    rw [inferRange, if_neg hne, he]
    simp only [dif_neg hsplit]
    rcases h calls range with ⟨rows', hok', -⟩ | ⟨e', he', ht⟩
    · cases he.symm.trans hok'
    · cases he.symm.trans he'
      intro o ho
      obtain ⟨x, -, rfl⟩ := mem_map.mp ho
      exact PvError.outcome_waits ht

theorem inferRanges_waits {ask : Nat → List X → Except PvError (List V)} (h : Asks ask col)
    {converting : Bool} : ∀ (ranges : List (List X)) (calls : Nat),
      ∀ o ∈ inferRanges ask col converting calls ranges, o.Waits
  | [], _, o, ho => by cases ho
  | range :: ranges, calls, o, ho => by
    rcases mem_append.mp ho with ho | ho
    · exact inferRange_waits h calls range o ho
    · exact inferRanges_waits h ranges _ o ho

/-- **A batch waits out an outage**: if the last refresh reached a node that holds the target, and
    every node that answers a request succeeds, every outcome is a vector or a retry. -/
theorem infer_waits {inventory : Nat → List Info} {known : Known} {here : Nat}
    {answered : List Nat} (hcon : Consistent inventory known) {target : Target} {i : Nat}
    (hi : i ∈ here :: answered) (hh : holds target (inventory i) = true) {timeout : Nat}
    (htime : 0 < timeout) {calls : Nat → Call X V}
    (hcalls : ∀ n node range, ((calls n).reply node range).answer.Succeeds col range.length)
    (payload : List X) :
    ∀ o ∈ infer (refresh inventory here answered known) timeout calls col target payload,
      o.Waits := by
  obtain ⟨⟨model, route⟩, hroute, n, hn, hserves⟩ := routeFor_held hcon hi hh
  unfold infer
  rw [hroute]
  refine inferRanges_waits (fun c range => ?_) _ 0
  refine predictLoop_waits (hcalls c · range) (.inr ⟨htime, n, ?_, hserves⟩)
  exact mem_rotate.mpr hn

end Batches

end Postvec.Inference
