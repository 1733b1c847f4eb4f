import Neug.Execution.PathExpand
import Neug.Execution.Value

/-! Columns of vertices and of plain values as they are stored. -/
namespace Neug.Execution
open List

/-- The greatest `vid_t`, which marks a row without a vertex. -/
def nullVid : ℕ := 2 ^ 32 - 1

/-- The greatest `label_t`. -/
def nullLabel : ℕ := 255
def VertexRecord.IsNull (v : VertexRecord) : Prop := v.vid = nullVid

instance (v : VertexRecord) : Decidable v.IsNull := inferInstanceAs (Decidable (_ = _))

inductive VertexColumnType where
  | single | multiSegment | multiple
  deriving DecidableEq, Repr

namespace VertexColumn

/-- `vertex_column_type`. -/
def columnType : VertexColumn → VertexColumnType
  | single _ _ => .single
  | multiSegment _ => .multiSegment
  | multiple _ => .multiple

def getVertex : VertexColumn → ℕ → Option VertexRecord
  | single label vids, idx => vids[idx]?.map (VertexRecord.mk label)
  | multiSegment segments, idx => inSegments segments idx
  | multiple vertices, idx => vertices[idx]?
where
  inSegments : List (ℕ × List ℕ) → ℕ → Option VertexRecord
    | [], _ => none
    | (label, vids) :: rest, idx =>
      if idx < vids.length then vids[idx]?.map (VertexRecord.mk label)
      else inSegments rest (idx - vids.length)

theorem inSegments_eq (segments : List (ℕ × List ℕ)) (idx : ℕ) :
    getVertex.inSegments segments idx = (multiSegment segments).vertices[idx]? := by
  induction segments generalizing idx with
  | nil => rfl
  | cons s rest ih =>
    obtain ⟨label, vids⟩ := s
    simp only [vertices] at ih
    simp only [getVertex.inSegments, vertices, flatMap_cons]
    by_cases h : idx < vids.length
    · rw [if_pos h, getElem?_append_left (by simpa using h), getElem?_map]
    · rw [if_neg h, getElem?_append_right (by simpa using h), ih, length_map]

theorem getVertex_eq (s : VertexColumn) (idx : ℕ) : s.getVertex idx = s.vertices[idx]? := by
  cases s with
  | single label vids => simp [getVertex, vertices]
  | multiSegment segments => exact inSegments_eq segments idx
  | multiple vs => rfl

end VertexColumn

/-- `IVertexColumn`. The builders put no other vertices into a column than those of the graph, and
null only into an optional one. -/
structure IVertexColumn where
  store : VertexColumn
  isOptional : Bool
  valid : ∀ v ∈ store.vertices, v.IsNull ∨ v.Valid
  nonNull : isOptional = false → ∀ v ∈ store.vertices, ¬ v.IsNull
  nullRecord : store.columnType = .multiple → ∀ v ∈ store.vertices, v.IsNull → v.label = nullLabel

namespace IVertexColumn

variable (c : IVertexColumn)

def size : ℕ := c.store.vertices.length

def getElem (i : ℕ) : Value :=
  match c.store.getVertex i with
  | some v => if c.isOptional ∧ v.IsNull then .null else .vertex v
  | none => .null

variable {c}

theorem getElem_of_some {i : ℕ} {v : VertexRecord} (h : c.store.getVertex i = some v) :
    c.getElem i = if v.IsNull then .null else .vertex v := by
  have hmem : v ∈ c.store.vertices := mem_of_getElem? (c.store.getVertex_eq i ▸ h)
  by_cases hnull : v.IsNull
  · have hopt : c.isOptional = true := by
      by_contra hopt
      exact c.nonNull (Bool.eq_false_of_not_eq_true hopt) v hmem hnull
    simp [getElem, h, hopt]
  · simp [getElem, h, hnull]

theorem exists_vertex {i : ℕ} (hi : i < c.size) :
    ∃ v ∈ c.store.vertices, c.store.getVertex i = some v := by
  refine ⟨c.store.vertices[i], getElem_mem hi, ?_⟩
  rw [VertexColumn.getVertex_eq]
  exact getElem?_eq_getElem hi

theorem hasType_getElem {i : ℕ} (hi : i < c.size) : HasType (.simple .vertex) (c.getElem i) := by
  obtain ⟨v, hv, hget⟩ := exists_vertex hi
  rw [getElem_of_some hget]
  by_cases hnull : v.IsNull
  · rw [if_pos hnull]
    exact hasType_null _
  · rw [if_neg hnull]
    exact .inr ⟨v, rfl, (c.valid v hv).resolve_left hnull⟩

/-- Null is one vertex record, unless the column has segments of several labels. -/
theorem eq_of_isNull (h : c.store.columnType ≠ .multiSegment) {v w : VertexRecord}
    (hv : v ∈ c.store.vertices) (hw : w ∈ c.store.vertices) (hvnull : v.IsNull)
    (hwnull : w.IsNull) : v = w := by
  have hvid : v.vid = w.vid := .trans hvnull (.symm hwnull)
  have hlabel : v.label = w.label := by
    cases hs : c.store with
    | single label vids =>
      rw [hs] at hv hw
      obtain ⟨x, -, rfl⟩ := mem_map.mp hv
      obtain ⟨y, -, rfl⟩ := mem_map.mp hw
      rfl
    | multiSegment segments => exact absurd (by rw [hs]; rfl) h
    | multiple vs =>
      have hml : c.store.columnType = .multiple := by rw [hs]; rfl
      rw [c.nullRecord hml v hv hvnull, c.nullRecord hml w hw hwnull]
  cases v
  cases w
  simp_all

end IVertexColumn

structure ValueColumn (T : Type) where
  data : List T
  valid : List Bool
  isOptional : Bool
  aligned : isOptional = true → valid.length = data.length

namespace ValueColumn

variable {T : Type} (c : ValueColumn T)

def size : ℕ := c.data.length

/-- `get_value`, the stored number whether or not the row is null. -/
def getValue (i : ℕ) : Option T := c.data[i]?
def hasValue (i : ℕ) : Bool := !c.isOptional || c.valid.getD i false

/-- `get_elem`, with the constructor that `Value::CreateValue` takes for the type. -/
def getElem (create : T → Value) (i : ℕ) : Value :=
  if c.hasValue i then (c.getValue i).elim .null create else .null

end ValueColumn

end Neug.Execution
