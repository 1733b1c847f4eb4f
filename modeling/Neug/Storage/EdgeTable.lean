import Neug.Lib.Call
import Neug.Storage.MutableCsr
import Neug.Storage.Table

/-! `EdgeTable` for a multiple/multiple edge type: an outgoing and an incoming CSR over the same
edges, and a table for the properties that do not fit into the CSR entries. -/
namespace Neug.Storage
open Neug.Lib

variable {V : Type}

structure PropertyDef (V : Type) where
  name : String
  type : DataTypeId
  default : V
  softDeleted : Bool
  deriving DecidableEq, Repr

/-- The data of a CSR entry: nothing, the value of the only property, or a row of the table. -/
inductive EdgeData (V : Type) where
  | empty
  | value (v : V)
  | row (i : ℕ)
  deriving DecidableEq, Repr

/-- The members of `EdgeTable`. `properties` is the shared `EdgeSchema`; `csrType` is the data
type both CSRs were created with, absent for `EmptyType`. -/
structure EdgeTable (V : Type) where
  properties : List (PropertyDef V)
  csrType : Option DataTypeId
  outCsr : MutableCsr (EdgeData V)
  inCsr : MutableCsr (EdgeData V)
  table : Table V
  tableIdx : ℕ
  capacity : ℕ
  deriving DecidableEq, Repr

inductive EdgeError where
  | csr (e : CsrError)
  | table (e : TableError)
  | edgeDataSize
  | invalidOutOffset
  | invalidInOffset
  | notSupported (type : DataTypeId)
  | columnCast
  | propertyExists (name : String)
  | columnsNotMatch
  deriving DecidableEq, Repr

abbrev EdgeCall (V α : Type) := Call (EdgeTable V) EdgeError α

def isBundled : List (PropertyDef V) → Bool
  | [] => true
  | [p] => p.type ≠ .varchar
  | _ => false

/-- `std::numeric_limits<int32_t>::max()`, the result of an unsuccessful search. -/
def int32Max : ℕ := 2 ^ 31 - 1

/-- What a search compares of an entry: its data and timestamp, and for an entry without data
the eight bytes from the timestamp on, which reach into the entry behind it. -/
structure Probe (V : Type) where
  data : EdgeData V
  timestamp : ℕ
  next : ℕ

/-- The probe of an entry. `past` is the word behind the last entry of the list. -/
def probe (l : List (Nbr (EdgeData V))) (past i : ℕ) (n : Nbr (EdgeData V)) : Probe V :=
  ⟨n.data, n.timestamp, match l[i + 1]? with
    | some m => m.neighbor
    | none => past⟩

section

variable [PropertyValue V]

/-- `nbr_data_eq` with the type that `determine_search_prop_type` gives. No result stands for
data that does not have the layout of the schema. -/
def nbrDataEq (properties : List (PropertyDef V)) (a b : Probe V) : Option Bool :=
  match a.data, b.data with
  | .row i, .row j => some (i == j)
  | .value v, .value w => some (PropertyValue.eq v w)
  | .empty, .empty =>
    if properties.isEmpty then some (a.timestamp == b.timestamp && a.next == b.next) else none
  | _, _ => none

def findExactMatch (properties : List (PropertyDef V)) (l : List (Nbr (EdgeData V)))
    (past : ℕ) (expected : Probe V) : List ℕ → Option ℕ
  | [] => some int32Max
  | i :: rest => do
    let n ← l[i]?
    let same ← nbrDataEq properties (probe l past i n) expected
    if same && n.timestamp == expected.timestamp then return i
    else findExactMatch properties l past expected rest

/-- The visible entries of a list that lead to `nbr`. -/
def candidates (l : List (Nbr (EdgeData V))) (t nbr : ℕ) : List ℕ :=
  MutableCsr.offsets (fun n => n.visible t && n.neighbor == nbr) l

/-- `fuzzy_search_offset_from_nbr_list`: a single candidate is taken without a comparison. -/
def fuzzySearchOffset (properties : List (PropertyDef V)) (l : List (Nbr (EdgeData V)))
    (past t nbr : ℕ) (expected : Probe V) : Option ℕ :=
  match candidates l t nbr with
  | [] => some int32Max
  | [i] => some i
  | is => findExactMatch properties l past expected is

end

namespace EdgeTable

/-- `open_in_memory` of the property table for a schema. -/
def openTable (properties : List (PropertyDef V)) : Table V :=
  .openInMemory (properties.map PropertyDef.name) (properties.map PropertyDef.type)

/-- The constructor, and `Open` where there is no checkpoint. -/
def create (properties : List (PropertyDef V)) : EdgeTable V where
  properties := properties
  csrType := if isBundled properties then properties.head?.map PropertyDef.type else some .uint64
  outCsr := .empty
  inCsr := .empty
  table := if isBundled properties then .empty else openTable properties
  tableIdx := 0
  capacity := 0

def onOut (f : MutableCsr (EdgeData V) → Except CsrError (MutableCsr (EdgeData V))) :
    EdgeCall V Unit := fun t =>
  match f t.outCsr with
  | .ok c => some (.ok (), { t with outCsr := c })
  | .error e => some (.error (.csr e), t)

def onIn (f : MutableCsr (EdgeData V) → Except CsrError (MutableCsr (EdgeData V))) :
    EdgeCall V Unit := fun t =>
  match f t.inCsr with
  | .ok c => some (.ok (), { t with inCsr := c })
  | .error e => some (.error (.csr e), t)

def onTable (f : Table V → Option (Table V × Except TableError Unit)) : EdgeCall V Unit := fun t =>
  (f t.table).map fun r =>
    (match r.2 with
      | .ok _ => .ok ()
      | .error e => .error (.table e), { t with table := r.1 })

/-- The entry data for the arguments of `AddEdge` in a bundled table. -/
def bundledData (t : EdgeTable V) (edgeData : List V) : Option (EdgeData V) :=
  match t.csrType, edgeData with
  | none, [_] => some .empty
  | none, [] => if t.properties.isEmpty then some .empty else none
  | some _, [v] => some (.value v)
  | _, _ => none

def rowData (t : EdgeTable V) (i : ℕ) : Option (EdgeData V) :=
  match t.csrType with
  | none => some .empty
  | some .uint64 => some (.row i)
  | _ => none

/-- The two `put_generic_edge` of `AddEdge`. The incoming CSR is written first. -/
def putBoth (src dst : ℕ) (d : EdgeData V) (ts : ℕ) : EdgeCall V Unit := do
  onIn fun c => c.putEdge dst src d ts
  onOut fun c => c.putEdge src dst d ts

/-- `AddEdge` in a bundled table. -/
def addBundledEdge (src dst : ℕ) (edgeData : List V) (ts : ℕ) : EdgeCall V Unit := do
  let t ← Call.read
  let d ← Call.defined (t.bundledData edgeData)
  putBoth src dst d ts

/-- `AddEdge` in a table with rows. -/
def addUnbundledEdge (src dst : ℕ) (edgeData : List V) (ts : ℕ) : EdgeCall V Unit := do
  let t ← Call.read
  if t.properties.length ≠ edgeData.length then Call.raise .edgeDataSize
  else do
    Call.modify fun t => { t with tableIdx := t.tableIdx + 1 }
    let d ← Call.defined (t.rowData t.tableIdx)
    putBoth src dst d ts
    onTable fun tab => tab.insert t.tableIdx edgeData

/-- `AddEdge`. The offset it returns is the length of the outgoing list before the call. -/
def addEdge (src dst : ℕ) (edgeData : List V) (ts : ℕ) : EdgeCall V Unit := do
  let t ← Call.read
  if isBundled t.properties then addBundledEdge src dst edgeData ts
  else addUnbundledEdge src dst edgeData ts

section

variable [PropertyValue V]

def ensureTableCapacity (capacity : ℕ) : EdgeCall V Unit := do
  let t ← Call.read
  if isBundled t.properties ∨ capacity ≤ t.capacity then pure ()
  else do
    onTable fun tab =>
      some (tab.resize (max capacity 4096) (t.properties.map PropertyDef.default))
    Call.modify fun t => { t with capacity := max capacity 4096 }

def ensureCapacity (srcCap dstCap capacity : ℕ) : EdgeCall V Unit := do
  Call.modify fun t =>
    { t with outCsr := if t.outCsr.size < srcCap then t.outCsr.resize srcCap else t.outCsr
             inCsr := if t.inCsr.size < dstCap then t.inCsr.resize dstCap else t.inCsr }
  ensureTableCapacity capacity

/-- The enlargement at the start of `BatchAddEdges`; its loop ends after one round. -/
def reserveRows (n : ℕ) : EdgeCall V Unit := do
  let t ← Call.read
  let newSize := t.tableIdx + n
  if isBundled t.properties ∨ newSize < t.capacity then pure ()
  else ensureTableCapacity (if newSize < 4096 then 4096 else newSize + (newSize + 4) / 5)

end

/-- `batch_put_edges` on both CSRs, at the default timestamp 0. -/
def putBatch (rows : List (ℕ × ℕ × EdgeData V)) : EdgeCall V Unit :=
  Call.modify fun t =>
    { t with outCsr := t.outCsr.batchPutEdges rows 0
             inCsr := t.inCsr.batchPutEdges (rows.map fun r => (r.2.1, r.1, r.2.2)) 0 }

def insertRows : ℕ → List (List V) → EdgeCall V Unit
  | _, [] => pure ()
  | i, vs :: rest => do
    onTable fun tab => tab.insert i vs
    insertRows (i + 1) rest

/-- The edges of a batch in a table with rows, which are numbered from `table_idx_` on. No
result stands for CSRs that do not hold row numbers. -/
def putUnbundled (rows : List (ℕ × ℕ × List V)) : EdgeCall V Unit := do
  let t ← Call.read
  if t.csrType ≠ some .uint64 then Call.undefined
  else do
    Call.modify fun t => { t with tableIdx := t.tableIdx + rows.length }
    putBatch (rows.mapIdx fun i r => (r.1, r.2.1, .row (t.tableIdx + i)))
    insertRows t.tableIdx (rows.map fun r => r.2.2)

def bundledRow (t : EdgeTable V) (vs : List V) : Option (EdgeData V) :=
  match t.properties, t.csrType, vs with
  | [], none, _ => some .empty
  | [p], some ty, [v] => if p.type = ty then some (.value v) else none
  | _, _, _ => none

def putBundled (rows : List (ℕ × ℕ × List V)) : EdgeCall V Unit := do
  let t ← Call.read
  let entries ← Call.defined (rows.mapM fun r =>
    (t.bundledRow r.2.2).map fun d => (r.1, r.2.1, d))
  putBatch entries

/-- `BatchAddEdges` of lists. The bundled branch reads `properties[0]`. -/
def batchAddEdges [PropertyValue V] (rows : List (ℕ × ℕ × List V)) : EdgeCall V Unit := do
  reserveRows rows.length
  let t ← Call.read
  if t.properties.isEmpty then Call.undefined
  else if isBundled t.properties then putBundled rows
  else putUnbundled rows

/-- A row of a record batch after the look-up of its keys: the vertices that were found and the
properties, or none if their columns do not have the types of the schema. -/
structure BatchRow (V : Type) (srcNum dstNum : ℕ) where
  src : Option (Fin srcNum)
  dst : Option (Fin dstNum)
  props : Option (List V)

def filterInvalidEdges {srcNum dstNum : ℕ} (rows : List (BatchRow V srcNum dstNum)) :
    List (ℕ × ℕ × Option (List V)) :=
  rows.filterMap fun r =>
    match r.src, r.dst with
    | some s, some d => some (s.val, d.val, r.props)
    | _, _ => none

def insertBatchRows (i : ℕ) : List (Option (List V)) → EdgeCall V Unit
  | [] => pure ()
  | none :: _ => Call.raise .columnsNotMatch
  | some vs :: rest => do
    onTable fun tab => tab.insert i vs
    insertBatchRows (i + 1) rest

/-- `BatchAddEdges` from record batches. Both CSRs are resized to the number of vertices, which
may be less than they had. -/
def batchAddRecords [PropertyValue V] {srcNum dstNum : ℕ} (rows : List (BatchRow V srcNum dstNum)) :
    EdgeCall V Unit := do
  Call.modify fun t =>
    { t with inCsr := t.inCsr.resize dstNum, outCsr := t.outCsr.resize srcNum }
  let valid := filterInvalidEdges rows
  reserveRows valid.length
  let t ← Call.read
  if isBundled t.properties then do
    let entries ← Call.defined (valid.mapM fun r =>
      (t.bundledRow ((r.2.2.getD []).take 1)).map fun d => (r.1, r.2.1, d))
    putBatch entries
  else if t.csrType ≠ some .uint64 then Call.undefined
  else do
    Call.modify fun t => { t with tableIdx := t.tableIdx + valid.length }
    putBatch (valid.mapIdx fun i r => (r.1, r.2.1, .row (t.tableIdx + i)))
    insertBatchRows t.tableIdx (valid.map fun r => r.2.2)

def batchDeleteVertices (srcSet dstSet : Finset ℕ) : EdgeCall V Unit :=
  Call.modify fun t =>
    { t with outCsr := t.outCsr.batchDeleteVertices srcSet dstSet
             inCsr := t.inCsr.batchDeleteVertices dstSet srcSet }

def batchDeletePairs (pairs : List (ℕ × ℕ)) : EdgeCall V Unit :=
  Call.modify fun t =>
    { t with outCsr := t.outCsr.batchDeletePairs pairs
             inCsr := t.inCsr.batchDeletePairs (pairs.map Prod.swap) }

def batchDeleteOffsets (oeEdges ieEdges : List (ℕ × ℕ)) : EdgeCall V Unit :=
  Call.modify fun t =>
    { t with outCsr := t.outCsr.batchDeleteOffsets oeEdges
             inCsr := t.inCsr.batchDeleteOffsets ieEdges }

def deleteEdge (src dst oeOffset ieOffset ts : ℕ) : EdgeCall V Unit := do
  onOut fun c => c.deleteEdge src oeOffset ts
  onIn fun c => c.deleteEdge dst ieOffset ts

def revertDeleteEdge (src dst oeOffset ieOffset ts : ℕ) : EdgeCall V Unit := do
  onOut fun c => c.revertDeleteEdge src dst oeOffset ts
  onIn fun c => c.revertDeleteEdge dst src ieOffset ts

/-- The words behind the lists of the outgoing and of the incoming CSR: memory that no
function of the table writes. -/
structure Past where
  out : ℕ → ℕ
  inn : ℕ → ℕ

/-- `search_other_offset_with_cur_offset` from a list of the outgoing CSR. -/
def searchInOffset [PropertyValue V] (t : EdgeTable V) (past : Past) (vid i ts : ℕ)
    (n : Nbr (EdgeData V)) : Option ℕ :=
  if t.inCsr.size ≤ n.neighbor then none
  else fuzzySearchOffset t.properties (t.inCsr.list n.neighbor) (past.inn n.neighbor) ts vid
    (probe (t.outCsr.list vid) (past.out vid) i n)

/-- `search_other_offset_with_cur_offset` from a list of the incoming CSR. -/
def searchOutOffset [PropertyValue V] (t : EdgeTable V) (past : Past) (vid i ts : ℕ)
    (n : Nbr (EdgeData V)) : Option ℕ :=
  if t.outCsr.size ≤ n.neighbor then none
  else fuzzySearchOffset t.properties (t.outCsr.list n.neighbor) (past.out n.neighbor) ts vid
    (probe (t.inCsr.list vid) (past.inn vid) i n)

/-- `DeleteVertex` from the source side: a walk over the offsets of the outgoing list. -/
def deleteOutEdges [PropertyValue V] (past : Past) (vid ts : ℕ) : List ℕ → EdgeCall V Unit
  | [] => pure ()
  | i :: rest => do
    let t ← Call.read
    let n ← Call.defined (t.outCsr.list vid)[i]?
    if n.timestamp ≤ ts then do
      let ie ← Call.defined (t.searchInOffset past vid i ts n)
      deleteEdge vid n.neighbor i ie ts
      deleteOutEdges past vid ts rest
    else deleteOutEdges past vid ts rest

/-- `DeleteVertex` from the destination side. -/
def deleteInEdges [PropertyValue V] (past : Past) (vid ts : ℕ) : List ℕ → EdgeCall V Unit
  | [] => pure ()
  | i :: rest => do
    let t ← Call.read
    let n ← Call.defined (t.inCsr.list vid)[i]?
    if n.timestamp ≤ ts then do
      let oe ← Call.defined (t.searchOutOffset past vid i ts n)
      deleteEdge n.neighbor vid oe i ts
      deleteInEdges past vid ts rest
    else deleteInEdges past vid ts rest

/-- `DeleteVertex`. No result stands for a vertex without a list. -/
def deleteVertex [PropertyValue V] (past : Past) (isSrc : Bool) (vid ts : ℕ) :
    EdgeCall V Unit := do
  let t ← Call.read
  if isSrc then
    if t.outCsr.size ≤ vid then Call.undefined
    else deleteOutEdges past vid ts (List.range (t.outCsr.list vid).length)
  else
    if t.inCsr.size ≤ vid then Call.undefined
    else deleteInEdges past vid ts (List.range (t.inCsr.list vid).length)

/-- `EdgeDataAccessor::get_data` of a column. -/
def getData (t : EdgeTable V) (col : ℕ) : EdgeData V → Option V
  | .value v => if isBundled t.properties then some v else none
  | .row i =>
    if isBundled t.properties then none
    else (t.table.columns[col]?).bind fun c => c.cells[i]?
  | .empty => none

/-- `EdgeDataAccessor::set_data` on an entry of a bundled table. -/
def bundledSet (t : EdgeTable V) (prop : V) (ts : ℕ) (n : Nbr (EdgeData V)) :
    Option (Nbr (EdgeData V)) :=
  match t.properties, t.csrType with
  | [], none => some { n with timestamp := ts }
  | [p], some ty => if p.type = ty then some ⟨n.neighbor, ts, .value prop⟩ else none
  | _, _ => none

def updateInEntry (dst ieOffset : ℕ) (prop : V) (ts : ℕ) : EdgeCall V Unit := do
  let t ← Call.read
  match ← Call.defined (t.inCsr.advance dst ts ieOffset) with
  | none => Call.raise .invalidInOffset
  | some (i, n) =>
    let n' ← Call.defined (t.bundledSet prop ts n)
    Call.modify fun t => { t with inCsr := t.inCsr.setNbr dst i n' }

/-- `UpdateEdgeProperty` in a bundled table: both entries get the value and the timestamp. -/
def updateBundled (src dst oeOffset ieOffset : ℕ) (prop : V) (ts : ℕ) : EdgeCall V Unit := do
  let t ← Call.read
  match ← Call.defined (t.outCsr.advance src ts oeOffset) with
  | none => Call.raise .invalidOutOffset
  | some (i, n) =>
    let n' ← Call.defined (t.bundledSet prop ts n)
    Call.modify fun t => { t with outCsr := t.outCsr.setNbr src i n' }
    updateInEntry dst ieOffset prop ts

/-- `UpdateEdgeProperty` in a table with rows: the outgoing entry gets the timestamp, the row
gets the value. -/
def updateUnbundled (src oeOffset col : ℕ) (prop : V) (ts : ℕ) : EdgeCall V Unit := do
  let t ← Call.read
  if t.properties.length ≤ col then Call.undefined
  else
    match ← Call.defined (t.outCsr.advance src ts oeOffset) with
    | none => Call.raise .invalidOutOffset
    | some (i, n) =>
      match n.data with
      | .row r => do
        Call.modify fun t => { t with outCsr := t.outCsr.setNbr src i { n with timestamp := ts } }
        onTable fun tab => tab.setProp col r prop
      | _ => Call.undefined

def updateEdgeProperty (src dst oeOffset ieOffset col : ℕ) (prop : V) (ts : ℕ) :
    EdgeCall V Unit := do
  let t ← Call.read
  if isBundled t.properties then updateBundled src dst oeOffset ieOffset prop ts
  else updateUnbundled src oeOffset col prop ts

def compactOut : EdgeCall V Unit := fun t =>
  some (t.outCsr.compact.2.mapError .csr, { t with outCsr := t.outCsr.compact.1 })

def compactIn : EdgeCall V Unit := fun t =>
  some (t.inCsr.compact.2.mapError .csr, { t with inCsr := t.inCsr.compact.1 })

def dataLt [PropertyValue V] : EdgeData V → EdgeData V → Bool
  | .row i, .row j => i < j
  | .value v, .value w => PropertyValue.lt v w
  | _, _ => false

def compactBoth (compactCsr : Bool) : EdgeCall V Unit :=
  if compactCsr then do compactOut; compactIn else pure ()

def sortBoth [PropertyValue V] (sortOnCompaction : Bool) (ts : ℕ) : EdgeCall V Unit :=
  if sortOnCompaction then
    Call.modify fun t =>
      { t with outCsr := t.outCsr.batchSortByEdgeData dataLt ts
               inCsr := t.inCsr.batchSortByEdgeData dataLt ts }
  else pure ()

def compact [PropertyValue V] (compactCsr sortOnCompaction : Bool) (ts : ℕ) : EdgeCall V Unit := do
  compactBoth compactCsr
  sortBoth sortOnCompaction ts
  Call.modify fun t =>
    { t with outCsr := t.outCsr.resetTimestamp, inCsr := t.inCsr.resetTimestamp }

/-- Two new CSRs of the old sizes with the edges of `rows`. -/
def rebuild (t : EdgeTable V) (type : Option DataTypeId) (rows : List (ℕ × ℕ × EdgeData V)) :
    EdgeTable V :=
  { t with
    csrType := type
    outCsr := (MutableCsr.empty.resize t.outCsr.size).batchPutEdges rows 0
    inCsr := (MutableCsr.empty.resize t.inCsr.size).batchPutEdges
      (rows.map fun r => (r.2.1, r.1, r.2.2)) 0 }

/-- The end of `dropAndCreateNewBundledCSR`: the table goes away. -/
def rebuildBundled (t : EdgeTable V) (type : DataTypeId) (rows : List (ℕ × ℕ × EdgeData V)) :
    EdgeTable V :=
  { t.rebuild (some type) rows with table := .empty, tableIdx := 0, capacity := 0 }

def exportWith (t : EdgeTable V) (d : EdgeData V) : List (ℕ × ℕ × EdgeData V) :=
  t.outCsr.batchExport.map fun e => (e.1, e.2.1, d)

/-- `dropAndCreateNewBundledCSR` without a remaining column: every edge gets the default. -/
def createBundledDefault : EdgeCall V Unit := do
  let t ← Call.read
  let p ← Call.defined t.properties.head?
  if p.type = .varchar then Call.raise (.notSupported p.type)
  else Call.modify fun t => t.rebuildBundled p.type (t.exportWith (.value p.default))

def columnData (col : Column V) : EdgeData V → Option (EdgeData V)
  | .row i => (col.cells[i]?).map .value
  | _ => none

/-- `dropAndCreateNewBundledCSR` with a remaining column. -/
def createBundledFrom (col : Column V) : EdgeCall V Unit := do
  let t ← Call.read
  if col.type = .varchar then Call.raise (.notSupported col.type)
  else if t.csrType ≠ some .uint64 then Call.raise .columnCast
  else do
    let rows ← Call.defined (t.outCsr.batchExport.mapM fun e =>
      (columnData col e.2.2).map fun d => (e.1, e.2.1, d))
    Call.modify fun t => t.rebuildBundled col.type rows

/-- `dropAndCreateNewUnbundledCSR(true)`: edges without properties. -/
def createEmptyCsr : EdgeCall V Unit :=
  Call.modify fun t =>
    { t.rebuild none (t.exportWith .empty) with tableIdx := 0, capacity := 0 }

def entryValue : EdgeData V → Option V
  | .value v => some v
  | _ => none

def fillFirstColumn : EdgeCall V Unit := do
  let t ← Call.read
  match t.table.columns with
  | [] => pure ()
  | c :: rest =>
    if c.type = .varchar then pure ()
    else if t.csrType ≠ some c.type then Call.raise .columnCast
    else do
      let cells ← Call.defined (t.outCsr.batchExport.mapM fun e => entryValue e.2.2)
      Call.modify fun t => { t with table := { t.table with columns := ⟨c.type, cells⟩ :: rest } }

/-- `dropAndCreateNewUnbundledCSR(false)`: the edges get rows in a new table. -/
def createUnbundledCsr [PropertyValue V] : EdgeCall V Unit := do
  Call.modify fun t => { t with table := openTable t.properties }
  fillFirstColumn
  let t ← Call.read
  let edges := t.outCsr.batchExport
  onTable fun tab => some (tab.resize edges.length (t.properties.map PropertyDef.default))
  Call.modify fun t => { t with tableIdx := edges.length }
  ensureTableCapacity edges.length
  Call.modify fun t => t.rebuild (some .uint64) (edges.mapIdx fun i e => (e.1, e.2.1, .row i))

/-- `EdgeSchema::add_properties`, which stops at the first name that exists. -/
def addSchemaProperties : List (PropertyDef V) → EdgeCall V Unit
  | [] => pure ()
  | p :: rest => do
    let t ← Call.read
    if p.name ∈ t.properties.map PropertyDef.name then Call.raise (.propertyExists p.name)
    else do
      Call.modify fun t =>
        { t with properties := t.properties ++ [{ p with softDeleted := false }] }
      addSchemaProperties rest

/-- `EdgeSchema::delete_properties`, not soft: the first property of the name goes away. -/
def eraseProperty (ps : List (PropertyDef V)) (name : String) : List (PropertyDef V) :=
  ps.eraseP fun p => p.name = name

def deleteSchemaProperties (names : List String) : EdgeCall V Unit :=
  Call.modify fun t => { t with properties := names.foldl eraseProperty t.properties }

/-- `AddProperties`. The properties are in the shared schema already. -/
def addProperties [PropertyValue V] (new : List (PropertyDef V)) : EdgeCall V Unit := do
  let t ← Call.read
  if new.isEmpty then pure ()
  else if t.table.colNum = 0 then
    if t.properties.length = 1 ∧ isBundled t.properties then createBundledDefault
    else createUnbundledCsr
  else onTable fun tab => some (tab.addColumns (new.map PropertyDef.name)
    (new.map PropertyDef.type) (new.map PropertyDef.default)
    ((t.table.columns.head?.map fun c => c.cells.length).getD 0))

/-- What `DeleteProperties` does once columns have been deleted from the table. -/
def shrinkLayout : EdgeCall V Unit := do
  let t ← Call.read
  match t.table.columns with
  | [] => createEmptyCsr
  | [c] => if c.type = .varchar then pure () else createBundledFrom c
  | _ => pure ()

def deleteProperties (names : List String) : EdgeCall V Unit := do
  let t ← Call.read
  if isBundled t.properties then
    match t.properties with
    | [] => pure ()
    | p :: _ => if p.name ∈ names then createEmptyCsr else pure ()
  else do
    Call.modify fun t => { t with table := names.foldl Table.deleteColumn t.table }
    shrinkLayout

end EdgeTable

end Neug.Storage
