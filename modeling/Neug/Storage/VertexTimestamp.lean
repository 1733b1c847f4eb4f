import Mathlib

/-! `VertexTimestamp`: validity of vertices. The vertices below `init_vertex_num_` are valid
unless they stand in the removed set; each vertex above has an entry of its own in an array
that starts at `init_vertex_num_`. -/
namespace Neug.Storage
open List

/-- `DELETED_TIMESTAMP`, the largest `uint32_t`. -/
def deletedTimestamp : ℕ := 2 ^ 32 - 1

/-- The members of `VertexTimestamp`. A null array is an empty one; a null removed set is
kept apart, since `RevertRemoveVertex` asks for it. -/
structure VertexTimestamp where
  initVertexNum : ℕ
  maxVertexNum : ℕ
  inserted : List ℕ
  removed : Option (Finset ℕ)
  size : initVertexNum + inserted.length = maxVertexNum

inductive VertexError where
  | alreadyExists (v ts : ℕ)
  | outOfRange (v : ℕ)
  | hasBeenDeleted (v : ℕ)
  | notRemoved (v : ℕ)
  deriving DecidableEq, Repr

/-- `resize_inserted_vertices`: the front or the back of the old array, then fresh entries. -/
def resizeInserted (old : List ℕ) (newSize : ℕ) (keepFront : Bool) : List ℕ :=
  let minSize := min newSize old.length
  let kept := if keepFront then old.take minSize else old.drop (old.length - minSize)
  kept ++ List.replicate (newSize - minSize) deletedTimestamp

@[simp] theorem length_resizeInserted (old : List ℕ) (newSize : ℕ) (keepFront : Bool) :
    (resizeInserted old newSize keepFront).length = newSize := by
  unfold resizeInserted
  split_ifs <;> simp only [length_append, length_replicate, length_take, length_drop] <;> omega

namespace VertexTimestamp

/-- A default-constructed object, and the effect of `Reset`. -/
def empty : VertexTimestamp := ⟨0, 0, [], none, rfl⟩
def removedSet (x : VertexTimestamp) : Finset ℕ := x.removed.getD ∅

/-- `Init`. The comparison with the current members comes before the reset. -/
def init (x : VertexTimestamp) (initVertexNum maxVertexNum : ℕ) : VertexTimestamp :=
  if x.initVertexNum = initVertexNum ∧ x.maxVertexNum = maxVertexNum then x
  else
    { initVertexNum := initVertexNum
      maxVertexNum := max initVertexNum maxVertexNum
      inserted := List.replicate (max initVertexNum maxVertexNum - initVertexNum) deletedTimestamp
      removed := none
      size := by simp }

def reserve (x : VertexTimestamp) (newSize : ℕ) : VertexTimestamp :=
  if newSize ≤ x.maxVertexNum ∧ x.initVertexNum < newSize then x
  else if h : newSize ≤ x.initVertexNum then
    { initVertexNum := newSize, maxVertexNum := newSize, inserted := []
      removed := x.removed.map fun s => s.filter (· < newSize)
      size := rfl }
  else
    { x with maxVertexNum := newSize
             inserted := resizeInserted x.inserted (newSize - x.initVertexNum) true
             size := by rw [length_resizeInserted]; omega }

/-- The first part of `InsertVertex` for a vertex below `init_vertex_num_`: the array is
enlarged and its start moved down to `v`. -/
def rebase (x : VertexTimestamp) (v : ℕ) (hv : v < x.initVertexNum) : VertexTimestamp :=
  { x with initVertexNum := v
           inserted := resizeInserted x.inserted (x.maxVertexNum - v) false
           size := by rw [length_resizeInserted]; have := x.size; omega }

def setEntry (x : VertexTimestamp) (v ts : ℕ) : VertexTimestamp :=
  { x with inserted := x.inserted.set (v - x.initVertexNum) ts
           size := by rw [List.length_set]; exact x.size }

/-- The second part of `InsertVertex`: `compare_exchange` from `DELETED_TIMESTAMP`. No result
stands for an access outside the array. -/
def claimEntry (x : VertexTimestamp) (v ts : ℕ) :
    Option (VertexTimestamp × Except VertexError Unit) :=
  match x.inserted[v - x.initVertexNum]? with
  | none => none
  | some old =>
    if old = deletedTimestamp then some (x.setEntry v ts, .ok ())
    else some (x, .error (.alreadyExists v old))

def insertVertex (x : VertexTimestamp) (v ts : ℕ) :
    Option (VertexTimestamp × Except VertexError Unit) :=
  if hv : v < x.initVertexNum then
    if ts = 0 then some (x, .ok ()) else (x.rebase v hv).claimEntry v ts
  else x.claimEntry v ts

/-- `IsVertexValid`. The bound check lets `v = max_vertex_num_` through to the array. -/
def isVertexValid (x : VertexTimestamp) (v ts : ℕ) : Option Bool :=
  if x.maxVertexNum < v then some false
  else if x.initVertexNum ≤ v then
    (x.inserted[v - x.initVertexNum]?).map fun old => decide (old ≤ ts)
  else
    match x.removed with
    | some s => some (decide (v ∉ s))
    | none => some true

/-- `RemoveVertex`, with the timestamp it returns. -/
def removeVertex (x : VertexTimestamp) (v : ℕ) : VertexTimestamp × Except VertexError ℕ :=
  if x.maxVertexNum ≤ v then (x, .error (.outOfRange v))
  else if x.initVertexNum ≤ v then
    let old := x.inserted.getD (v - x.initVertexNum) deletedTimestamp
    if old = deletedTimestamp then (x, .error (.hasBeenDeleted v))
    else (x.setEntry v deletedTimestamp, .ok old)
  else ({ x with removed := some (insert v x.removedSet) }, .ok 0)

/-- `RevertRemoveVertex`. No result stands for a vertex outside the array. -/
def revertRemoveVertex (x : VertexTimestamp) (v oldTs : ℕ) :
    Option (VertexTimestamp × Except VertexError Unit) :=
  if x.maxVertexNum ≤ v then none
  else if x.initVertexNum ≤ v then some (x.setEntry v oldTs, .ok ())
  else
    match x.removed with
    | none => some (x, .error (.notRemoved v))
    | some s => some ({ x with removed := some (s.erase v) }, .ok ())

def isRemoved (x : VertexTimestamp) (v : ℕ) : Bool :=
  if x.maxVertexNum ≤ v then false
  else if x.initVertexNum ≤ v then x.inserted[v - x.initVertexNum]? == some deletedTimestamp
  else decide (v ∈ x.removedSet)

def resetTimestamps (x : VertexTimestamp) : VertexTimestamp :=
  { x with inserted := x.inserted.map fun ts => if ts = deletedTimestamp then ts else 0
           size := by rw [List.length_map]; exact x.size }

def firstNonZero (x : VertexTimestamp) : ℕ := (x.inserted.takeWhile (· = 0)).length

theorem firstNonZero_le (x : VertexTimestamp) : x.firstNonZero ≤ x.inserted.length :=
  (takeWhile_sublist _).length_le

/-- The second part of `Compact`: the leading entries with timestamp 0 are dropped. -/
def dropLeading (x : VertexTimestamp) : VertexTimestamp :=
  if 0 < x.firstNonZero then
    { x with initVertexNum := x.initVertexNum + x.firstNonZero
             inserted := resizeInserted x.inserted (x.inserted.length - x.firstNonZero) false
             size := by
               rw [length_resizeInserted]
               have := x.size
               have := x.firstNonZero_le
               omega }
  else x

def compact (x : VertexTimestamp) : VertexTimestamp := x.resetTimestamps.dropLeading

structure TsFile where
  initVertexNum : ℕ
  maxVertexNum : ℕ
  removed : List ℕ
  timestamps : List ℕ
  deriving DecidableEq

def dumpTs (x : VertexTimestamp) : TsFile :=
  ⟨x.initVertexNum, x.maxVertexNum, x.removedSet.sort (· ≤ ·), x.inserted⟩

/-- `Dump`: what the object becomes and the file it writes. -/
def dump (x : VertexTimestamp) : VertexTimestamp × TsFile :=
  let y := x.resetTimestamps.compact
  (y, y.dumpTs)

/-- `Open` of a default-constructed object on an existing file. No result stands for a file
that fails the assertion on the number of timestamps. -/
def openTs (f : TsFile) : Option VertexTimestamp :=
  if h : f.initVertexNum + f.timestamps.length = f.maxVertexNum then
    some { initVertexNum := f.initVertexNum
           maxVertexNum := f.maxVertexNum
           inserted := f.timestamps
           removed := if f.removed.length = 0 then none else some f.removed.toFinset
           size := h }
  else none

end VertexTimestamp

end Neug.Storage
