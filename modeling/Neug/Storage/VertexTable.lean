import Neug.Lib.Call
import Neug.Storage.Table
import Neug.Storage.VertexTimestamp

/-! `VertexTable`: the vertices of one label. The indexer gives every primary key a local id,
the table holds the properties of an id in one row, and the tracker says when an id is valid. -/
namespace Neug.Storage
open Neug.Lib

variable {V : Type}

/-- The members of `VertexTable`: the keys of the indexer in the order of their ids and the
indexer's capacity, the table, which is gone after `Drop`, and the tracker. -/
structure VertexTable (V : Type) where
  keys : List V
  capacity : ℕ
  table : Option (Table V)
  tracker : VertexTimestamp

inductive VertexTableError where
  | tracker (e : VertexError)
  | table (e : TableError)
  | idExists (vid : ℕ)
  | lidOutOfRange (lid : ℕ)
  | lidDeleted (lid : ℕ)
  deriving DecidableEq, Repr

abbrev VertexCall (V α : Type) := Call (VertexTable V) VertexTableError α

namespace VertexTable

def create (names : List String) (types : List DataTypeId) : VertexTable V :=
  ⟨[], 0, some (.openInMemory names types), .empty⟩

def onTracker (f : VertexTimestamp → Option (VertexTimestamp × Except VertexError Unit)) :
    VertexCall V Unit := fun t =>
  (f t.tracker).map fun r => (r.2.mapError .tracker, { t with tracker := r.1 })

def onTable (f : Table V → Option (Table V × Except TableError Unit)) :
    VertexCall V Unit := fun t =>
  (t.table.bind f).map fun r => (r.2.mapError .table, { t with table := some r.1 })

def isValidLid (t : VertexTable V) (lid ts : ℕ) : Option Bool :=
  if lid < t.keys.length then t.tracker.isVertexValid lid ts else some false

section

variable [PropertyValue V]

def resizeTable (defaults : List V) (capacity : ℕ) : VertexCall V Unit := do
  let t ← Call.read
  match t.table with
  | none => pure ()
  | some tab =>
    if tab.size < capacity then onTable fun tab => some (tab.resize capacity defaults)
    else pure ()

def ensureCapacity (defaults : List V) (capacity : ℕ) : VertexCall V Unit := do
  let t ← Call.read
  if capacity ≤ t.capacity then pure ()
  else do
    Call.modify fun t => { t with capacity := max (max capacity 4096) t.keys.length }
    resizeTable defaults (max capacity 4096)
    Call.modify fun t => { t with tracker := t.tracker.reserve (max capacity 4096) }

end

section

variable [DecidableEq V]

/-- `insert_vertex_pk` for a key that has an id already. -/
def reviveVertex (vid ts : ℕ) : VertexCall V ℕ := do
  let t ← Call.read
  if ← Call.defined (t.tracker.isVertexValid vid ts) then Call.raise (.idExists vid)
  else do
    onTracker fun x => x.insertVertex vid ts
    pure vid

/-- `insert_vertex_pk` for a new key. -/
def appendVertex (id : V) (ts : ℕ) : VertexCall V ℕ := do
  let t ← Call.read
  Call.modify fun t => { t with keys := t.keys ++ [id] }
  onTracker fun x => x.insertVertex t.keys.length ts
  pure t.keys.length

def insertVertexPk (id : V) (ts : ℕ) : VertexCall V ℕ := do
  let t ← Call.read
  match t.keys.idxOf? id with
  | some vid => reviveVertex vid ts
  | none => appendVertex id ts

/-- The row of a new vertex. No result stands for the assertion on the length of the columns. -/
def insertRow (vid : ℕ) (props : List V) : VertexCall V Unit := do
  let t ← Call.read
  let tab ← Call.defined t.table
  if 0 < tab.colNum ∧ tab.size ≤ vid then Call.undefined
  else onTable fun tab => tab.insert vid props

/-- `AddVertex`, with the id of the vertex. -/
def addVertex (id : V) (props : List V) (ts : ℕ) : VertexCall V (Option ℕ) := do
  let t ← Call.read
  if t.capacity ≤ t.keys.length then pure none
  else do
    let vid ← insertVertexPk id ts
    insertRow vid props
    pure (some vid)

end

def getOid (lid ts : ℕ) : VertexCall V V := do
  let t ← Call.read
  match t.keys[lid]? with
  | none => Call.raise (.lidOutOfRange lid)
  | some id =>
    if ← Call.defined (t.tracker.isVertexValid lid ts) then pure id
    else Call.raise (.lidDeleted lid)

/-- `UpdateProperty` of a valid vertex. -/
def setProperty (vid col : ℕ) (value : V) : VertexCall V Bool := do
  let t ← Call.read
  let tab ← Call.defined t.table
  if tab.colNum ≤ col then pure false
  else do
    onTable fun tab => tab.setProp col vid value
    pure true

def updateProperty (vid col : ℕ) (value : V) (ts : ℕ) : VertexCall V Bool := do
  let t ← Call.read
  if ← Call.defined (t.isValidLid vid ts) then setProperty vid col value else pure false

def deleteVertex (lid ts : ℕ) : VertexCall V Unit := do
  let t ← Call.read
  if ← Call.defined (t.isValidLid lid ts) then
    onTracker fun x => some ((x.removeVertex lid).1, (x.removeVertex lid).2.map fun _ => ())
  else pure ()

/-- `RevertDeleteVertex`. No result stands for the assertion on the id. -/
def revertDeleteVertex (lid ts : ℕ) : VertexCall V Unit := do
  let t ← Call.read
  if t.keys.length ≤ lid then Call.undefined
  else if t.tracker.isRemoved lid then onTracker fun x => x.revertRemoveVertex lid ts
  else pure ()

/-- `get_index`: the id of a key that is valid. -/
def getIndex [DecidableEq V] (t : VertexTable V) (oid : V) (ts : ℕ) : Option (Option ℕ) :=
  match t.keys.idxOf? oid with
  | none => some none
  | some lid => (t.tracker.isVertexValid lid ts).map fun valid => if valid then some lid else none

def row (t : VertexTable V) (lid : ℕ) : List (Option V) :=
  match t.table with
  | some tab => tab.row lid
  | none => []

def vertices (t : VertexTable V) (ts : ℕ) : List (ℕ × Option V × List (Option V)) :=
  ((List.range t.keys.length).filter fun lid => t.isValidLid lid ts == some true).map
    fun lid => (lid, t.keys[lid]?, t.row lid)

end VertexTable

end Neug.Storage
