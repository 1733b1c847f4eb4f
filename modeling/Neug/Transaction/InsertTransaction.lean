import Neug.Storage.InsertVisibility

/-! `InsertTransaction`: vertices and edges are collected in an archive, which `Commit` appends to
the log and then ingests. A vertex that is not in the graph gets a virtual id, the number of the
label's ids at the first insertion plus its index among the transaction's own vertices. -/
namespace Neug.Transaction
open Neug.Lib Neug.Storage Call PropertyGraph

variable {V : Type}

inductive InsertRedo (V : Type) where
  | insertVertex (label : ℕ) (oid : V) (props : List V)
  | insertEdge (srcLabel : ℕ) (src : V) (dstLabel : ℕ) (dst : V) (edgeLabel : ℕ) (props : List V)
  deriving DecidableEq, Repr

inductive InsertError where
  | graph (e : GraphError)
  | addVertexFailed
  | keyNotSupported (type : DataTypeId)
  deriving DecidableEq, Repr

abbrev IngestCall (V α : Type) := Call (PropertyGraph V) InsertError α

def liftGraph {α : Type} (m : GraphCall V α) : IngestCall V α := fun g =>
  (m g).map fun r => (r.1.mapError .graph, r.2)

section

variable [DecidableEq V]

/-- A key that has to be in the graph. No result stands for the `CHECK` on
`get_vertex_with_retries`; a retry is a later step. -/
def requireVertex (label : ℕ) (oid : V) (ts : ℕ) : IngestCall V ℕ := do
  let g ← Call.read
  match ← Call.defined (g.getLid label oid ts) with
  | some lid => pure lid
  | none => Call.undefined

/-- The loop body of `IngestWal`. -/
def ingestRedo (ts : ℕ) : InsertRedo V → IngestCall V Unit
  | .insertVertex label oid props => do
    match ← liftGraph (PropertyGraph.addVertex label oid props ts) with
    | some _ => pure ()
    | none => Call.raise .addVertexFailed
  | .insertEdge srcLabel src dstLabel dst edgeLabel props => do
    let srcLid ← requireVertex srcLabel src ts
    let dstLid ← requireVertex dstLabel dst ts
    liftGraph (PropertyGraph.addEdge (srcLabel, dstLabel, edgeLabel) srcLid dstLid props ts)

def ingestWal (ts : ℕ) : List (InsertRedo V) → IngestCall V Unit
  | [] => pure ()
  | r :: rs => do
    ingestRedo ts r
    ingestWal ts rs

end

/-- The vertices that a transaction has added to a label: `added_vertices_base_` and the keys of
the indexer, whose number is `vertex_nums_`. -/
structure AddedVertices (V : Type) where
  base : ℕ
  keys : List V
  deriving DecidableEq, Repr

/-- The members of `InsertTransaction`. The graph is not changed before `Commit`. -/
structure InsertTransaction (V : Type) where
  timestamp : ℕ
  added : ℕ → Option (AddedVertices V)
  archive : List (InsertRedo V)

abbrev InsertCall (V α : Type) := Call (InsertTransaction V) InsertError α

namespace InsertTransaction

def start (timestamp : ℕ) : InsertTransaction V := ⟨timestamp, fun _ => none, []⟩

/-- The types that primary keys of an `IdIndexer` may have. -/
def keySupported : DataTypeId → Bool
  | .int64 | .uint64 | .int32 | .uint32 | .varchar => true
  | _ => false

/-- `vid_t` is a `uint32_t`. -/
def toVid (n : ℕ) : ℕ := n % 2 ^ 32

/-- `GetVertexId`. No result stands for the `CHECK` on the index. -/
def getVertexId (g : PropertyGraph V) (x : InsertTransaction V) (label lid : ℕ) :
    Option (Except GraphError V) :=
  match x.added label with
  | none => (PropertyGraph.getOid label lid x.timestamp g).map Prod.fst
  | some a =>
    if a.base ≤ lid then (a.keys[lid - a.base]?).map .ok
    else (PropertyGraph.getOid label lid x.timestamp g).map Prod.fst

section

variable [DecidableEq V]

def getVertexIndex (g : PropertyGraph V) (x : InsertTransaction V) (label : ℕ) (id : V) :
    Option (Option ℕ) :=
  (g.getLid label id x.timestamp).map fun found =>
    found.or ((x.added label).bind fun a =>
      (a.keys.idxOf? id).map fun i => toVid (i + a.base))

end

section

variable [PropertyValue V]

def typesMatch (props : List V) (ps : List (PropertyDef V)) : Bool :=
  props.map PropertyValue.type = (visibleProperties ps).map PropertyDef.type

def createIdIndexer (g : PropertyGraph V) (label : ℕ) : InsertCall V (AddedVertices V) := do
  let x ← Call.read
  match x.added label with
  | some a => pure a
  | none => do
    let t ← Call.defined g.vertexTables[label]?
    let pk ← Call.defined ((g.schema.vertexSchemas[label]?).bind VertexSchema.primaryKey)
    if keySupported pk.1 then do
      Call.modify fun x =>
        { x with added := Function.update x.added label (some ⟨toVid t.keys.length, []⟩) }
      pure ⟨toVid t.keys.length, []⟩
    else Call.raise (.keyNotSupported pk.1)

/-- `AddVertex` of a key that is neither in the graph nor added yet. -/
def appendVertex (label : ℕ) (a : AddedVertices V) (id : V) (props : List V) : InsertCall V ℕ := do
  Call.modify fun x =>
    { x with added := Function.update x.added label (some { a with keys := a.keys ++ [id] })
             archive := x.archive ++ [.insertVertex label id props] }
  pure (toVid (a.keys.length + a.base))

def addVertex [DecidableEq V] (g : PropertyGraph V) (label : ℕ) (id : V) (props : List V) :
    InsertCall V (Option ℕ) := do
  if g.schema.vertexLabelValid label then
    if typesMatch props (g.vertexProperties label) then do
      let a ← createIdIndexer g label
      let x ← Call.read
      match ← Call.defined (x.getVertexIndex g label id) with
      | some vid => pure (some vid)
      | none => do
        let vid ← appendVertex label a id props
        pure (some vid)
    else pure none
  else Call.raise (.graph (.labelNotValid label))

/-- The key behind an id, for `AddEdge`. -/
def addressedKey (g : PropertyGraph V) (label lid : ℕ) : InsertCall V V := do
  let x ← Call.read
  match ← Call.defined (x.getVertexId g label lid) with
  | .ok id => pure id
  | .error e => Call.raise (.graph e)

def edgeProperties (g : PropertyGraph V) (τ : Triplet) : Option (List (PropertyDef V)) :=
  if g.schema.vertexLabelValid τ.1 && g.schema.vertexLabelValid τ.2.1 &&
      g.schema.edgeLabelValid τ.2.2 && g.exist τ then
    (g.edgeTables τ).map EdgeTable.properties
  else none

def addEdge (g : PropertyGraph V) (srcLabel src dstLabel dst edgeLabel : ℕ) (props : List V) :
    InsertCall V Bool := do
  let srcKey ← addressedKey g srcLabel src
  let dstKey ← addressedKey g dstLabel dst
  match edgeProperties g (srcLabel, dstLabel, edgeLabel) with
  | none => Call.raise (.graph (.tripletNotFound (srcLabel, dstLabel, edgeLabel)))
  | some ps =>
    if typesMatch props ps then do
      Call.modify fun x =>
        { x with archive := x.archive ++
            [.insertEdge srcLabel srcKey dstLabel dstKey edgeLabel props] }
      pure true
    else pure false

end

end InsertTransaction

section

variable {α : Type} {g g' : PropertyGraph V} {ts label : ℕ} {oid : V} {props : List V}

theorem liftGraph_run {m : GraphCall V α} {r : Except InsertError α}
    (h : liftGraph m g = some (r, g')) : ∃ q, m g = some (q, g') ∧ r = q.mapError .graph := by
  obtain ⟨⟨q, g''⟩, hm, heq⟩ := Option.map_eq_some_iff.mp h
  obtain ⟨hr, rfl⟩ := Prod.mk.inj heq
  exact ⟨q, hm, hr.symm⟩

variable [DecidableEq V]

theorem requireVertex_run {r : Except InsertError ℕ} (h : requireVertex label oid ts g =
    some (r, g')) : g' = g ∧ ∃ lid, r = .ok lid ∧ g.getLid label oid ts = some (some lid) := by
  obtain ⟨found, hfound, h⟩ := defined_bind_eq_some.mp h
  cases found with
  | none => cases h
  | some lid =>
    simp only [pure_apply, Option.some_inj, Prod.mk.injEq] at h
    exact ⟨h.2.symm, lid, h.1.symm, hfound⟩

theorem ingestVertex_run {r : Except InsertError Unit}
    (h : ingestRedo ts (.insertVertex label oid props) g = some (r, g')) :
    ∃ t q t', g.vertexTables[label]? = some t ∧
      VertexTable.addVertex oid props ts t = some (q, t') ∧
      g' = { g with vertexTables := g.vertexTables.set label t' } ∧
      (r = .ok () ↔ ∃ vid, q = .ok (some vid)) := by
  rcases bind_cases h with ⟨found, g'', hadd, h⟩ | ⟨e, hadd, rfl⟩
  · obtain ⟨q', hq', hr⟩ := liftGraph_run hadd
    obtain ⟨t, q, t', ht, hrun, rfl, rfl⟩ := onVertex_run hq'
    cases q with
    | error e => exact absurd hr (by simp [Except.mapError])
    | ok vid =>
      cases hr
      cases found with
      | some vid =>
        simp only [pure_apply, Option.some_inj, Prod.mk.injEq] at h
        exact ⟨t, _, t', ht, hrun, h.2.symm, by simp [← h.1]⟩
      | none =>
        simp only [raise_apply, Option.some_inj, Prod.mk.injEq] at h
        exact ⟨t, _, t', ht, hrun, h.2.symm, by simp [← h.1]⟩
  · obtain ⟨q', hq', hr⟩ := liftGraph_run hadd
    obtain ⟨t, q, t', ht, hrun, rfl, rfl⟩ := onVertex_run hq'
    cases q with
    | ok vid => exact absurd hr (by simp [Except.mapError])
    | error e' => exact ⟨t, _, t', ht, hrun, rfl, by simp⟩

/-- Ingesting an edge leaves the graph as it is, or is `AddEdge` on the table of its triplet. -/
theorem ingestEdge_run {srcLabel dstLabel edgeLabel : ℕ} {src dst : V} {r : Except InsertError Unit}
    (h : ingestRedo ts (.insertEdge srcLabel src dstLabel dst edgeLabel props) g =
      some (r, g')) : ∃ srcLid dstLid, g.getLid srcLabel src ts = some (some srcLid) ∧
      g.getLid dstLabel dst ts = some (some dstLid) ∧
      ((g' = g ∧ g.edgeTables (srcLabel, dstLabel, edgeLabel) = none ∧ r ≠ .ok ()) ∨
        ∃ t q t', g.edgeTables (srcLabel, dstLabel, edgeLabel) = some t ∧
          EdgeTable.addEdge srcLid dstLid props ts t = some (q, t') ∧
          g' = { g with edgeTables :=
            Function.update g.edgeTables (srcLabel, dstLabel, edgeLabel) (some t') } ∧
          (r = .ok () ↔ q = .ok ())) := by
  rcases bind_cases h with ⟨srcLid, g₁, hsrcRun, hafterSrc⟩ | ⟨e, hsrcRun, -⟩
  · obtain ⟨rfl, lid, hlid, hsrc⟩ := requireVertex_run hsrcRun
    obtain rfl : srcLid = lid := Except.ok.inj hlid
    rcases bind_cases hafterSrc with ⟨dstLid, g₂, hdstRun, hadd⟩ | ⟨e, hdstRun, -⟩
    · obtain ⟨rfl, lid, hlid, hdst⟩ := requireVertex_run hdstRun
      obtain rfl : dstLid = lid := Except.ok.inj hlid
      refine ⟨srcLid, dstLid, hsrc, hdst, ?_⟩
      obtain ⟨q', hq', rfl⟩ := liftGraph_run hadd
      rw [addEdge, read_bind] at hq'
      split_ifs at hq' with hlabel
      · obtain ⟨t, q, t', ht, hrun, rfl, rfl⟩ := onEdge_run hq'
        exact .inr ⟨t, q, t', ht, hrun, rfl, by cases q <;> simp [Except.mapError]⟩
      · rw [raise_apply] at hq'
        obtain ⟨rfl, rfl⟩ := hq'
        refine .inl ⟨rfl, ?_, by simp [Except.mapError]⟩
        simpa [hasEdgeLabel] using hlabel
    · obtain ⟨-, lid, hlid, -⟩ := requireVertex_run hdstRun
      cases hlid
  · obtain ⟨-, lid, hlid, -⟩ := requireVertex_run hsrcRun
    cases hlid

end

end Neug.Transaction
