import Neug.Storage.EdgeRun
import Neug.Storage.PropertyGraph

/-! `PropertyGraph::Compact`. The labels that are not deleted get new numbers, the tables move
along, and then every table is compacted on its own. -/
namespace Neug.Storage
open Neug.Lib

variable {V : Type}

/-- What `Compact` throws. -/
inductive CompactError where
  | addVertexLabel (name : String)
  | addEdgeLabel (name : String)
  | vertexLabelNotFound (name : String)
  | edgeLabelNotFound (name : String)
  | primaryKeyCount
  | edge (e : EdgeError)
  deriving DecidableEq, Repr

abbrev CompactCall (V α : Type) := Call (PropertyGraph V) CompactError α

/-- `IdIndexer::add` of one name after another; the first that is there already is reported. -/
def addLabels (failure : String → CompactError) :
    List String → List String → Except CompactError (List String)
  | names, [] => .ok names
  | names, name :: rest =>
    if name ∈ names then .error (failure name) else addLabels failure (names ++ [name]) rest

namespace Schema

def liveVertexLabels (s : Schema V) : List ℕ :=
  (List.range s.vertexLabels.length).filter s.vertexLabelValid

def liveEdgeLabels (s : Schema V) : List ℕ :=
  (List.range s.edgeLabels.length).filter s.edgeLabelValid

/-- `get_key` of the vertex label indexer. -/
def vertexName (s : Schema V) (label : ℕ) : String := s.vertexLabels.getD label ""

/-- `get_key` of the edge label indexer. -/
def edgeName (s : Schema V) (label : ℕ) : String := s.edgeLabels.getD label ""

/-- `Schema::Compact`. The edge schemas move with the edge tables. -/
def compact (s : Schema V) : Except CompactError (Schema V) := do
  let vertexLabels ← addLabels .addVertexLabel [] (s.liveVertexLabels.map s.vertexName)
  let edgeLabels ← addLabels .addEdgeLabel [] (s.liveEdgeLabels.map s.edgeName)
  pure { vertexLabels := vertexLabels
         vertexTomb := ∅
         vertexSchemas := s.liveVertexLabels.filterMap fun label => s.vertexSchemas[label]?
         edgeLabels := edgeLabels
         edgeTomb := ∅
         tripletTomb := ∅ }

def vertexLabelIdInternal (s : Schema V) (name : String) : Except CompactError ℕ :=
  match s.vertexLabels.idxOf? name with
  | some label => .ok label
  | none => .error (.vertexLabelNotFound name)

def edgeLabelIdInternal (s : Schema V) (name : String) : Except CompactError ℕ :=
  match s.edgeLabels.idxOf? name with
  | some label => .ok label
  | none => .error (.edgeLabelNotFound name)

end Schema

def VertexTable.compact (t : VertexTable V) : VertexTable V :=
  { t with tracker := t.tracker.compact }

namespace PropertyGraph

/-- The triplets at a source label that exist and whose labels are not deleted, in the order in
which they are visited. -/
def liveTripletsFrom (g : PropertyGraph V) (src : ℕ) : List Triplet :=
  g.schema.liveVertexLabels.flatMap fun dst =>
    (g.schema.liveEdgeLabels.filter fun e => g.exist (src, dst, e)).map fun e => (src, dst, e)

def liveTriplets (g : PropertyGraph V) : List Triplet :=
  g.schema.liveVertexLabels.flatMap g.liveTripletsFrom

def renumber (old new : Schema V) (τ : Triplet) : Except CompactError Triplet := do
  let src ← new.vertexLabelIdInternal (old.vertexName τ.1)
  let dst ← new.vertexLabelIdInternal (old.vertexName τ.2.1)
  let e ← new.edgeLabelIdInternal (old.edgeName τ.2.2)
  pure (src, dst, e)

def moveEdgeTable (g : PropertyGraph V) (new : Schema V) (tables : Triplet → Option (EdgeTable V))
    (τ : Triplet) : Except CompactError (Triplet → Option (EdgeTable V)) := do
  let τ' ← renumber g.schema new τ
  pure (Function.update tables τ' (g.edgeTables τ))

/-- `SetVertexSchema` on the moved vertex tables, which checks the number of primary keys. -/
def checkPrimaryKeys : List (VertexSchema V) → Except CompactError Unit
  | [] => .ok ()
  | s :: rest => if s.primaryKey.isSome then checkPrimaryKeys rest else .error .primaryKeyCount

/-- The members that `compact_schema` assigns at its end, for the vertex tables it has moved. -/
def compactedMembers (g : PropertyGraph V) (vertexTables : List (VertexTable V)) :
    Except CompactError (PropertyGraph V) := do
  let schema ← g.schema.compact
  checkPrimaryKeys schema.vertexSchemas
  let edgeTables ← g.liveTriplets.foldlM (g.moveEdgeTable schema) fun _ => none
  pure ⟨schema, vertexTables, edgeTables⟩

/-- `compact_schema`. No result stands for a label without a vertex table. -/
def compactSchema : CompactCall V Unit := do
  let g ← Call.read
  let vertexTables ← Call.defined (g.schema.liveVertexLabels.mapM fun label =>
    g.vertexTables[label]?)
  Call.update fun g => (g.compactedMembers vertexTables).map fun g' => ((), g')

abbrev TripletName := String × String × String

def tripletName (g : PropertyGraph V) (τ : Triplet) : TripletName :=
  (g.schema.vertexName τ.1, g.schema.vertexName τ.2.1, g.schema.edgeName τ.2.2)

/-- A round of the loops of `Compact`: one vertex table or one edge table. -/
inductive Round where
  | vertex (label : ℕ)
  | edge (τ : Triplet)
  deriving DecidableEq, Repr

def rounds (g : PropertyGraph V) : List Round :=
  g.schema.liveVertexLabels.flatMap fun src =>
    .vertex src :: (g.liveTripletsFrom src).map .edge

section

variable [PropertyValue V]

/-- One round. `sortOn` holds the flags `sort_on_compaction` of the edge schemas, which no call
changes. -/
def compactRound (compactCsr : Bool) (sortOn : TripletName → Bool) (ts : ℕ) :
    Round → CompactCall V Unit
  | .vertex label =>
    Call.modify fun g => { g with vertexTables := g.vertexTables.modify label VertexTable.compact }
  | .edge τ => fun g =>
    match g.edgeTables τ with
    | none => some (.ok (), g)
    | some t => (EdgeTable.compact compactCsr (sortOn (g.tripletName τ)) ts t).map fun r =>
        (r.1.mapError .edge, { g with edgeTables := Function.update g.edgeTables τ (some r.2) })

def compactRounds (compactCsr : Bool) (sortOn : TripletName → Bool) (ts : ℕ) :
    List Round → CompactCall V Unit
  | [] => pure ()
  | r :: rest => do
    compactRound compactCsr sortOn ts r
    compactRounds compactCsr sortOn ts rest

def compact (compactCsr : Bool) (sortOn : TripletName → Bool) (ts : ℕ) : CompactCall V Unit := do
  compactSchema
  let g ← Call.read
  compactRounds compactCsr sortOn ts g.rounds

end

end PropertyGraph

end Neug.Storage
