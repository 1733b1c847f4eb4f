import Neug.Storage.PropertyGraph

/-! `UpdateTransaction`: data operations that are applied to the graph at once and leave undo
records, and `Abort`, which runs the records. The redo log is not part of this model. -/
namespace Neug.Transaction
open Neug.Lib Neug.Storage

variable {V : Type}

abbrev EdgePlace := ℕ × ℕ × ℕ × ℕ

inductive UndoLog (V : Type) where
  | insertVertex (label vid : ℕ)
  | insertEdge (τ : Triplet) (src dst oeOffset ieOffset : ℕ)
  | updateVertexProp (label vid col : ℕ) (value : V)
  | updateEdgeProp (τ : Triplet) (src dst oeOffset ieOffset col : ℕ) (value : V)
  | removeVertex (label lid : ℕ) (related : List (Triplet × List EdgePlace))
  | removeEdge (τ : Triplet) (src dst oeOffset ieOffset : ℕ)

structure UpdateTransaction (V : Type) where
  graph : PropertyGraph V
  undoLogs : List (UndoLog V)

abbrev TxnCall (V α : Type) := Call (UpdateTransaction V) GraphError α

section

variable [PropertyValue V]

def revertEdges (ts : ℕ) : List EdgePlace → EdgeCall V Unit
  | [] => pure ()
  | (src, dst, oe, ie) :: rest => do
    EdgeTable.revertDeleteEdge src dst oe ie ts
    revertEdges ts rest

def revertRelated (ts : ℕ) : List (Triplet × List EdgePlace) → GraphCall V Unit
  | [] => pure ()
  | (τ, es) :: rest => do
    PropertyGraph.onEdge τ (revertEdges ts es)
    revertRelated ts rest

def UndoLog.undo (past : Triplet → EdgeTable.Past) (ts : ℕ) : UndoLog V → GraphCall V Unit
  | .insertVertex label vid => PropertyGraph.deleteVertex past label vid ts
  | .insertEdge τ src dst oe ie => PropertyGraph.onEdge τ (EdgeTable.deleteEdge src dst oe ie ts)
  | .updateVertexProp label vid col value => do
    let _ ← PropertyGraph.onVertex label (VertexTable.updateProperty vid col value ts)
    pure ()
  | .updateEdgeProp τ src dst oe ie col value =>
    PropertyGraph.onEdge τ (EdgeTable.updateEdgeProperty src dst oe ie col value ts)
  | .removeVertex label lid related => do
    PropertyGraph.onVertex label (VertexTable.revertDeleteVertex lid ts)
    revertRelated ts related
  | .removeEdge τ src dst oe ie =>
    PropertyGraph.onEdge τ (EdgeTable.revertDeleteEdge src dst oe ie ts)

end

namespace UpdateTransaction

def start (g : PropertyGraph V) : UpdateTransaction V := ⟨g, []⟩

def onGraph {α : Type} (m : GraphCall V α) : TxnCall V α := fun s =>
  (m s.graph).map fun r => (r.1, { s with graph := r.2 })

def push (u : UndoLog V) : TxnCall V Unit :=
  Call.modify fun s => { s with undoLogs := u :: s.undoLogs }

def requireLid (label lid ts : ℕ) : TxnCall V Unit := do
  let s ← Call.read
  if ← Call.defined (s.graph.isValidLid label lid ts) then pure ()
  else Call.raise .vertexNotValid

def edgeTable (τ : Triplet) : TxnCall V (EdgeTable V) := do
  let s ← Call.read
  match s.graph.edgeTables τ with
  | some t => pure t
  | none => Call.raise (.tripletNotFound τ)

section

variable [PropertyValue V] [DecidableEq V]

/-- The room that `AddVertex` makes before it adds the vertex. -/
def makeVertexRoom (label : ℕ) : GraphCall V Unit := do
  let g ← Call.read
  let t ← Call.defined g.vertexTables[label]?
  let size := t.keys.length
  if t.capacity ≤ size then
    PropertyGraph.ensureVertexCapacity label (if size < 4096 then 4096 else size + size / 4)
  else pure ()

/-- `AddVertex` with properties of the right types. -/
def insertVertex (label : ℕ) (oid : V) (props : List V) (ts : ℕ) : TxnCall V Bool := do
  onGraph (makeVertexRoom label)
  match ← onGraph (PropertyGraph.onVertex label (VertexTable.addVertex oid props ts)) with
  | none => pure false
  | some vid => do
    push (.insertVertex label vid)
    pure true

def addVertex (label : ℕ) (oid : V) (props : List V) (ts : ℕ) : TxnCall V Bool := do
  let s ← Call.read
  if s.graph.schema.vertexLabelValid label then
    if props.map PropertyValue.type =
        (visibleProperties (s.graph.vertexProperties label)).map PropertyDef.type then
      insertVertex label oid props ts
    else pure false
  else Call.raise (.labelNotValid label)

end

section

variable [PropertyValue V]

def fetchFromView (t : EdgeTable V) (past : EdgeTable.Past) (lid ts : ℕ) :
    Bool → Option (List EdgePlace)
  | true =>
    if t.outCsr.size ≤ lid then none
    else ((t.outCsr.list lid).zipIdx.filter fun x => x.1.visible ts).mapM fun x =>
      (t.searchInOffset past lid x.2 ts x.1).map fun ie => (lid, x.1.neighbor, x.2, ie)
  | false =>
    if t.inCsr.size ≤ lid then none
    else ((t.inCsr.list lid).zipIdx.filter fun x => x.1.visible ts).mapM fun x =>
      (t.searchOutOffset past lid x.2 ts x.1).map fun oe => (x.1.neighbor, lid, oe, x.2)

/-- The views that `fetch_edges_related_to_vertex` looks at: triplet and `is_src`. -/
def relatedViews (g : PropertyGraph V) (label : ℕ) : List (Triplet × Bool) :=
  ((List.range g.schema.vertexLabels.length).filter g.schema.vertexLabelValid).flatMap fun other =>
    ((List.range g.schema.edgeLabels.length).filter g.schema.edgeLabelValid).flatMap fun e =>
      (if g.exist (label, other, e) then [((label, other, e), true)] else []) ++
      if other ≠ label ∧ g.exist (other, label, e) then [((other, label, e), false)] else []

def fetchEdges (g : PropertyGraph V) (past : Triplet → EdgeTable.Past) (label lid ts : ℕ) :
    Option (List (Triplet × List EdgePlace)) :=
  (relatedViews g label).mapM fun v => do
    let t ← g.edgeTables v.1
    let es ← fetchFromView t (past v.1) lid ts v.2
    return (v.1, es)

/-- `DeleteVertex`. The undo record is pushed first. -/
def deleteVertex (past : Triplet → EdgeTable.Past) (label lid ts : ℕ) : TxnCall V Bool := do
  requireLid label lid ts
  let s ← Call.read
  let related ← Call.defined (fetchEdges s.graph past label lid ts)
  push (.removeVertex label lid related)
  onGraph (PropertyGraph.deleteVertex past label lid ts)
  pure true

/-- `UpdateVertexProperty` of a valid vertex and a value of the right type. -/
def writeVertexProperty (label lid col : ℕ) (value : V) (ts : ℕ) : TxnCall V Bool := do
  let s ← Call.read
  let t ← Call.defined s.graph.vertexTables[label]?
  let old ← Call.defined ((t.row lid)[col]?.join)
  if ← onGraph (PropertyGraph.onVertex label (VertexTable.updateProperty lid col value ts)) then do
    push (.updateVertexProp label lid col old)
    pure true
  else pure false

def updateVertexProperty (label lid col : ℕ) (value : V) (ts : ℕ) : TxnCall V Bool := do
  let s ← Call.read
  if (s.graph.vertexProperties label).length ≤ col then Call.raise (.propertyIndex col)
  else if ← Call.defined (s.graph.isValidLid label lid ts) then
    if (visibleProperties (s.graph.vertexProperties label))[col]?.map PropertyDef.type =
        some (PropertyValue.type value) then
      writeVertexProperty label lid col value ts
    else pure false
  else pure false

/-- The room that `AddEdge` makes in the property table; false if the triplet is deleted. -/
def makeEdgeRoom (τ : Triplet) : GraphCall V Bool := do
  let g ← Call.read
  let t ← Call.defined (g.edgeTables τ)
  let size := if isBundled t.properties then 0 else t.tableIdx
  if isBundled t.properties ∨ size < t.capacity then pure true
  else if g.exist τ then do
    PropertyGraph.onEdge τ
      (EdgeTable.ensureTableCapacity (if size < 4096 then 4096 else size + size / 4))
    pure true
  else pure false

/-- `AddEdge` once there is room. The other end of the new edge is searched for among all
entries, tombstones included. -/
def insertEdge (past : EdgeTable.Past) (τ : Triplet) (src dst : ℕ) (props : List V) (ts : ℕ) :
    TxnCall V Bool := do
  let _ ← onGraph (PropertyGraph.onVertex τ.1 (VertexTable.getOid src ts))
  let _ ← onGraph (PropertyGraph.onVertex τ.2.1 (VertexTable.getOid dst ts))
  let t ← edgeTable τ
  onGraph (PropertyGraph.onEdge τ (EdgeTable.addEdge src dst props ts))
  let oe := (t.outCsr.list src).length
  let t ← edgeTable τ
  let n ← Call.defined (t.outCsr.list src)[oe]?
  let ie ← Call.defined (t.searchInOffset past src oe invalidTimestamp n)
  push (.insertEdge τ src dst oe ie)
  pure true

def addEdge (past : EdgeTable.Past) (τ : Triplet) (src dst : ℕ) (props : List V) (ts : ℕ) :
    TxnCall V Bool := do
  let _ ← edgeTable τ
  if ← onGraph (makeEdgeRoom τ) then insertEdge past τ src dst props ts else pure false

/-- One round of `DeleteEdges`: the edge at offset `i` of the list, the `k`-th visible one. -/
def deleteEdgeAt (past : EdgeTable.Past) (τ : Triplet) (src dst ts i k : ℕ)
    (n : Nbr (EdgeData V)) : TxnCall V Unit := do
  let t ← edgeTable τ
  let ie ← Call.defined (t.searchInOffset past src i ts n)
  onGraph (PropertyGraph.onEdge τ (EdgeTable.deleteEdge src dst k ie ts))
  push (.removeEdge τ src dst k ie)

/-- One round of `UpdateEdgeProperty`. -/
def updateEdgeAt (past : EdgeTable.Past) (τ : Triplet) (src dst col : ℕ) (value : V)
    (ts i k : ℕ) (n : Nbr (EdgeData V)) : TxnCall V Unit := do
  let t ← edgeTable τ
  let ie ← Call.defined (t.searchInOffset past src i ts n)
  let old ← Call.defined (t.getData col n.data)
  onGraph (PropertyGraph.onEdge τ (EdgeTable.updateEdgeProperty src dst k ie col value ts))
  push (.updateEdgeProp τ src dst k ie col old)

/-- The loops over the visible edges from `src` to `dst`. `k` counts the visible edges. -/
def forEdges (τ : Triplet) (src dst ts : ℕ) (f : ℕ → ℕ → Nbr (EdgeData V) → TxnCall V Unit) :
    List ℕ → ℕ → TxnCall V Unit
  | [], _ => pure ()
  | i :: rest, k => do
    let t ← edgeTable τ
    let n ← Call.defined (t.outCsr.list src)[i]?
    if n.timestamp ≤ ts then
      if n.neighbor = dst then do
        f i k n
        forEdges τ src dst ts f rest (k + 1)
      else forEdges τ src dst ts f rest (k + 1)
    else forEdges τ src dst ts f rest k

/-- `DeleteEdges`. No result stands for a vertex without a list. -/
def deleteEdges (past : EdgeTable.Past) (τ : Triplet) (src dst ts : ℕ) : TxnCall V Bool := do
  requireLid τ.1 src ts
  requireLid τ.2.1 dst ts
  let t ← edgeTable τ
  if t.outCsr.size ≤ src ∨ t.inCsr.size ≤ dst then Call.undefined
  else do
    forEdges τ src dst ts (deleteEdgeAt past τ src dst ts)
      (List.range (t.outCsr.list src).length) 0
    pure true

def deleteEdge (τ : Triplet) (src dst oeOffset ieOffset ts : ℕ) : TxnCall V Bool := do
  requireLid τ.1 src ts
  requireLid τ.2.1 dst ts
  let s ← Call.read
  if s.graph.hasEdgeLabel τ then do
    onGraph (PropertyGraph.onEdge τ (EdgeTable.deleteEdge src dst oeOffset ieOffset ts))
    push (.removeEdge τ src dst oeOffset ieOffset)
    pure true
  else pure false

/-- The checks of `UpdateEdgeProperty`. -/
def checkEdgeUpdate (τ : Triplet) (src dst col ts : ℕ) : TxnCall V Unit := do
  let t ← edgeTable τ
  if t.properties.length ≤ col then Call.raise (.propertyIndex col)
  else do
    requireLid τ.1 src ts
    requireLid τ.2.1 dst ts

def updateEdgeProperties (past : EdgeTable.Past) (τ : Triplet) (src dst col : ℕ) (value : V)
    (ts : ℕ) : TxnCall V Bool := do
  checkEdgeUpdate τ src dst col ts
  let t ← edgeTable τ
  if t.outCsr.size ≤ src ∨ t.inCsr.size ≤ dst then Call.undefined
  else do
    forEdges τ src dst ts (updateEdgeAt past τ src dst col value ts)
      (List.range (t.outCsr.list src).length) 0
    pure true

/-- `UpdateEdgeProperty` by offsets. The old value is read at the raw outgoing offset, with all
entries counted. -/
def updateEdgeProperty (τ : Triplet) (src dst oeOffset ieOffset col : ℕ) (value : V) (ts : ℕ) :
    TxnCall V Bool := do
  checkEdgeUpdate τ src dst col ts
  let t ← edgeTable τ
  let n ← Call.defined (t.outCsr.list src)[oeOffset]?
  let old ← Call.defined (t.getData col n.data)
  onGraph (PropertyGraph.onEdge τ
    (EdgeTable.updateEdgeProperty src dst oeOffset ieOffset col value ts))
  push (.updateEdgeProp τ src dst oeOffset ieOffset col old)
  pure true

end

/-- The data operations of a transaction. `past` stands for the memory behind the lists. -/
inductive Op (V : Type) where
  | addVertex (label : ℕ) (oid : V) (props : List V)
  | deleteVertex (past : Triplet → EdgeTable.Past) (label lid : ℕ)
  | addEdge (past : EdgeTable.Past) (τ : Triplet) (src dst : ℕ) (props : List V)
  | deleteEdges (past : EdgeTable.Past) (τ : Triplet) (src dst : ℕ)
  | deleteEdge (τ : Triplet) (src dst oeOffset ieOffset : ℕ)
  | updateVertexProperty (label lid col : ℕ) (value : V)
  | updateEdgeProperties (past : EdgeTable.Past) (τ : Triplet) (src dst col : ℕ) (value : V)
  | updateEdgeProperty (τ : Triplet) (src dst oeOffset ieOffset col : ℕ) (value : V)

variable [PropertyValue V] [DecidableEq V]

def Op.call (ts : ℕ) : Op V → TxnCall V Bool
  | .addVertex label oid props => UpdateTransaction.addVertex label oid props ts
  | .deleteVertex past label lid => UpdateTransaction.deleteVertex past label lid ts
  | .addEdge past τ src dst props => UpdateTransaction.addEdge past τ src dst props ts
  | .deleteEdges past τ src dst => UpdateTransaction.deleteEdges past τ src dst ts
  | .deleteEdge τ src dst oe ie => UpdateTransaction.deleteEdge τ src dst oe ie ts
  | .updateVertexProperty label lid col value =>
    UpdateTransaction.updateVertexProperty label lid col value ts
  | .updateEdgeProperties past τ src dst col value =>
    UpdateTransaction.updateEdgeProperties past τ src dst col value ts
  | .updateEdgeProperty τ src dst oe ie col value =>
    UpdateTransaction.updateEdgeProperty τ src dst oe ie col value ts

def step (ts : ℕ) (s : UpdateTransaction V) (op : Op V) : Option (UpdateTransaction V) :=
  (op.call ts).after s

/-- `Abort`: what it throws, if anything, and the graph it leaves. -/
def abort (past : Triplet → EdgeTable.Past) (ts : ℕ) (s : UpdateTransaction V) :
    Option (Except GraphError Unit × PropertyGraph V) :=
  undoAll (UndoLog.undo past ts) s.undoLogs s.graph

end UpdateTransaction

end Neug.Transaction
