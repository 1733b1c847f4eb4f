import Neug.Storage.EdgeTable
import Neug.Storage.VertexTable

/-! `PropertyGraph`: a schema, one vertex table for each vertex label and one edge table for each
triplet of source label, destination label and edge label. -/
namespace Neug.Storage
open Neug.Lib

variable {V : Type}

abbrev Triplet := ℕ × ℕ × ℕ

/-- `VertexSchema`. The primary key is gone after `clear`. -/
structure VertexSchema (V : Type) where
  primaryKey : Option (DataTypeId × String)
  properties : List (PropertyDef V)
  deriving DecidableEq, Repr

/-- The members of `Schema`. The edge schemas are those of the edge tables, which share them. -/
structure Schema (V : Type) where
  vertexLabels : List String
  vertexTomb : Finset ℕ
  vertexSchemas : List (VertexSchema V)
  edgeLabels : List String
  edgeTomb : Finset ℕ
  tripletTomb : Finset Triplet

structure PropertyGraph (V : Type) where
  schema : Schema V
  vertexTables : List (VertexTable V)
  edgeTables : Triplet → Option (EdgeTable V)

inductive GraphError where
  | vertex (e : VertexTableError)
  | edge (e : EdgeError)
  | labelNotValid (label : ℕ)
  | tripletNotFound (τ : Triplet)
  | vertexNotValid
  | propertyIndex (col : ℕ)
  deriving DecidableEq, Repr

abbrev GraphCall (V α : Type) := Call (PropertyGraph V) GraphError α

def Schema.vertexLabelValid (s : Schema V) (label : ℕ) : Bool :=
  decide (label < s.vertexLabels.length) && decide (label ∉ s.vertexTomb)

def Schema.edgeLabelValid (s : Schema V) (label : ℕ) : Bool :=
  decide (label < s.edgeLabels.length) && decide (label ∉ s.edgeTomb)

def visibleProperties (ps : List (PropertyDef V)) : List (PropertyDef V) :=
  ps.filter fun p => !p.softDeleted

namespace PropertyGraph

def hasEdgeLabel (g : PropertyGraph V) (τ : Triplet) : Bool := (g.edgeTables τ).isSome

def exist (g : PropertyGraph V) (τ : Triplet) : Bool :=
  decide (τ ∉ g.schema.tripletTomb) && g.hasEdgeLabel τ

def vertexProperties (g : PropertyGraph V) (label : ℕ) : List (PropertyDef V) :=
  ((g.schema.vertexSchemas[label]?).map VertexSchema.properties).getD []

def onVertex {α : Type} (label : ℕ) (m : VertexCall V α) : GraphCall V α := fun g =>
  (g.vertexTables[label]?).bind fun t => (m t).map fun r =>
    (r.1.mapError .vertex, { g with vertexTables := g.vertexTables.set label r.2 })

def onEdge {α : Type} (τ : Triplet) (m : EdgeCall V α) : GraphCall V α := fun g =>
  (g.edgeTables τ).bind fun t => (m t).map fun r =>
    (r.1.mapError .edge, { g with edgeTables := Function.update g.edgeTables τ (some r.2) })

def isValidLid (g : PropertyGraph V) (label lid ts : ℕ) : Option Bool :=
  (g.vertexTables[label]?).bind fun t => t.isValidLid lid ts

def getLid [DecidableEq V] (g : PropertyGraph V) (label : ℕ) (oid : V) (ts : ℕ) :
    Option (Option ℕ) :=
  (g.vertexTables[label]?).bind fun t => t.getIndex oid ts

def getOid (label lid ts : ℕ) : GraphCall V V := onVertex label (VertexTable.getOid lid ts)

/-- `AddVertex`, with the id of the vertex. -/
def addVertex [DecidableEq V] (label : ℕ) (oid : V) (props : List V) (ts : ℕ) :
    GraphCall V (Option ℕ) :=
  onVertex label (VertexTable.addVertex oid props ts)

def addEdge (τ : Triplet) (src dst : ℕ) (props : List V) (ts : ℕ) : GraphCall V Unit := do
  let g ← Call.read
  if g.hasEdgeLabel τ then onEdge τ (EdgeTable.addEdge src dst props ts)
  else Call.raise (.tripletNotFound τ)

section

variable [PropertyValue V]

/-- The tables of the edges between `label` and `other`, with their new sizes, as
`EnsureCapacity` visits them. -/
def capacityRequests (g : PropertyGraph V) (label cap other : ℕ) : List (Triplet × ℕ × ℕ) :=
  let otherCap := ((g.vertexTables[other]?).map VertexTable.capacity).getD 0
  (List.range g.schema.edgeLabels.length).flatMap fun e =>
    (if g.hasEdgeLabel (label, other, e) then [((label, other, e), cap, otherCap)] else []) ++
    if label ≠ other ∧ g.hasEdgeLabel (other, label, e) then [((other, label, e), otherCap, cap)]
    else []

/-- `EnsureCapacity` on the edge tables, one after another. -/
def ensureEdgeCapacities : List (Triplet × ℕ × ℕ) → GraphCall V Unit
  | [] => pure ()
  | (τ, srcCap, dstCap) :: rest => do
    onEdge τ (EdgeTable.ensureCapacity srcCap dstCap 0)
    ensureEdgeCapacities rest

def enlarge (label capacity : ℕ) : GraphCall V Unit := do
  let g ← Call.read
  onVertex label
    (VertexTable.ensureCapacity ((g.vertexProperties label).map PropertyDef.default) capacity)
  let g ← Call.read
  let t ← Call.defined g.vertexTables[label]?
  ensureEdgeCapacities (((List.range g.schema.vertexLabels.length).filter
    g.schema.vertexLabelValid).flatMap (g.capacityRequests label t.capacity))

/-- `EnsureCapacity` for a vertex label that is valid. -/
def ensureVertexCapacity (label capacity : ℕ) : GraphCall V Unit := do
  let g ← Call.read
  let t ← Call.defined g.vertexTables[label]?
  if capacity ≤ t.capacity then pure () else enlarge label capacity

end

section

/-- The walks of `DeleteVertex` over edge tables: triplet and `is_src`. -/
def incidentWalks (g : PropertyGraph V) (label : ℕ) : List (Triplet × Bool) :=
  ((List.range g.schema.vertexLabels.length).filter g.schema.vertexLabelValid).flatMap fun i =>
    (List.range g.schema.edgeLabels.length).flatMap fun j =>
      (if g.hasEdgeLabel (i, label, j) then [((i, label, j), true)] else []) ++
      if g.hasEdgeLabel (label, i, j) then [((label, i, j), false)] else []

variable [PropertyValue V]

/-- `EdgeTable::DeleteVertex` on the edge tables, one after another. -/
def deleteIncident (past : Triplet → EdgeTable.Past) (lid ts : ℕ) :
    List (Triplet × Bool) → GraphCall V Unit
  | [] => pure ()
  | (τ, isSrc) :: rest => do
    onEdge τ (EdgeTable.deleteVertex (past τ) isSrc lid ts)
    deleteIncident past lid ts rest

def deleteVertex (past : Triplet → EdgeTable.Past) (label lid ts : ℕ) : GraphCall V Unit := do
  let g ← Call.read
  deleteIncident past lid ts (g.incidentWalks label)
  onVertex label (VertexTable.deleteVertex lid ts)

end

def vertices (g : PropertyGraph V) (label ts : ℕ) : List (ℕ × Option V × List (Option V)) :=
  ((g.vertexTables[label]?).map fun t => t.vertices ts).getD []

end PropertyGraph

end Neug.Storage
