import Mathlib

/-! `Table` and `TypedColumn`: the property columns of a vertex or edge type. -/
namespace Neug.Storage

/-- `DataTypeId`, the types a property may be declared with. -/
inductive DataTypeId where
  | int32 | int64 | uint32 | uint64 | float | double | boolean
  | timestampMs | date | interval | varchar
  deriving DecidableEq, Repr

/-- What the storage needs to know of a property value: its type, and the operators of the
typed value behind it. Nothing is assumed of the operators, so that floating-point values are
included. -/
class PropertyValue (V : Type) where
  type : V → DataTypeId
  eq : V → V → Bool
  lt : V → V → Bool

instance : PropertyValue ℕ := ⟨fun _ => .uint64, (· == ·), (· < ·)⟩

inductive TableError where
  | defaultTypeMismatch
  | indexOutOfRange
  | defaultSizeMismatch (expected got : ℕ)
  deriving DecidableEq, Repr

structure Column (V : Type) where
  type : DataTypeId
  cells : List V
  deriving DecidableEq, Repr

/-- Change the elements of a list one by one, each with its argument, and stop at the first
change that fails. -/
def changeEach {α β ε : Type} (f : α → β → Except ε α) : List α → List β → List α × Except ε Unit
  | a :: as, b :: bs =>
    match f a b with
    | .error e => (a :: as, .error e)
    | .ok a' => let rest := changeEach f as bs; (a' :: rest.1, rest.2)
  | as, _ => (as, .ok ())

variable {V : Type}

namespace Column

def resize [PropertyValue V] (n : ℕ) (c : Column V) (default : V) :
    Except TableError (Column V) :=
  if PropertyValue.type default ≠ c.type then .error .defaultTypeMismatch
  else .ok { c with cells := c.cells.take n ++ List.replicate (n - c.cells.length) default }

def setValue (i : ℕ) (c : Column V) (v : V) : Except TableError (Column V) :=
  if i < c.cells.length then .ok { c with cells := c.cells.set i v }
  else .error .indexOutOfRange

end Column

structure Table (V : Type) where
  columns : List (Column V)
  colNames : List String
  colIdMap : List (String × ℕ)
  deriving DecidableEq, Repr

namespace Table

def empty : Table V := ⟨[], [], []⟩

/-- `insert` of a hash map: an existing key keeps its value. -/
def insertKey (m : List (String × ℕ)) (name : String) (id : ℕ) : List (String × ℕ) :=
  if (m.lookup name).isSome then m else m ++ [(name, id)]

def colNum (t : Table V) : ℕ := t.columns.length

/-- `size`: the length of the first column. -/
def size (t : Table V) : ℕ := (t.columns.head?.map fun c => c.cells.length).getD 0

/-- The loop of `initColumns` and `add_columns`: names are registered one after another. -/
def addNames (t : Table V) (names : List String) : Table V :=
  names.foldl (fun t name =>
    { t with colIdMap := insertKey t.colIdMap name t.colNames.length
             colNames := t.colNames ++ [name] }) t

/-- `open_in_memory` where there are no column files: columns without rows. -/
def openInMemory (names : List String) (types : List DataTypeId) : Table V :=
  let t := (empty : Table V).addNames names
  { t with columns := (types.map fun ty => ⟨ty, []⟩).take t.colIdMap.length }

def resize [PropertyValue V] (t : Table V) (n : ℕ) (defaults : List V) :
    Table V × Except TableError Unit :=
  if defaults.length ≠ t.colNum then (t, .error (.defaultSizeMismatch t.colNum defaults.length))
  else
    let r := changeEach (Column.resize n) t.columns defaults
    ({ t with columns := r.1 }, r.2)

def addColumns [PropertyValue V] (t : Table V) (names : List String) (types : List DataTypeId)
    (defaults : List V) (capacity : ℕ) : Table V × Except TableError Unit :=
  if defaults.length ≠ names.length then
    (t, .error (.defaultSizeMismatch names.length defaults.length))
  else
    let r := changeEach (Column.resize capacity) (types.map fun ty => ⟨ty, []⟩) defaults
    ({ t.addNames names with columns := t.columns ++ r.1 }, r.2)

def deleteColumn (t : Table V) (name : String) : Table V :=
  match t.colIdMap.lookup name with
  | none => t
  | some id =>
    { columns := t.columns.eraseIdx id
      colNames := t.colNames.eraseIdx id
      colIdMap := (t.colIdMap.filter fun p => p.1 ≠ name).map fun p =>
        if id < p.2 then (p.1, p.2 - 1) else p }

/-- `insert`. No result stands for the check on the number of values. -/
def insert (t : Table V) (index : ℕ) (values : List V) :
    Option (Table V × Except TableError Unit) :=
  if values.length ≠ t.colNum then none
  else
    let r := changeEach (Column.setValue index) t.columns values
    some ({ t with columns := r.1 }, r.2)

/-- `set_prop` of a column. No result stands for a column that is not there. -/
def setProp (t : Table V) (col index : ℕ) (v : V) : Option (Table V × Except TableError Unit) :=
  match t.columns[col]? with
  | none => none
  | some c =>
    match c.setValue index v with
    | .ok c' => some ({ t with columns := t.columns.set col c' }, .ok ())
    | .error e => some (t, .error e)

/-- `get_row`; no value stands for a row outside a column. -/
def row (t : Table V) (i : ℕ) : List (Option V) := t.columns.map fun c => c.cells[i]?

end Table

end Neug.Storage
