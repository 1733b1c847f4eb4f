import Neug.Execution.ReadGraph
import Neug.Lib.PrefixCode

/-! Values of the query language and the bytes that `encode_value` writes for them. -/
namespace Neug.Execution
open Neug.Lib

/-- The `DataTypeId`s of values that hold no other values. -/
inductive SimpleType where
  | boolean | int32 | uint32 | int64 | uint64 | float | double | varchar
  | date | timestampMs | interval | vertex | edge | path
  deriving DecidableEq, Repr

inductive DataType where
  | simple (id : SimpleType)
  | list (elem : DataType)
  | struct (fields : List DataType)

/-- `Date`, the bit fields of a `DayValue`. -/
structure Date where
  hour : BitVec 5
  day : BitVec 5
  month : BitVec 4
  year : BitVec 18
  deriving DecidableEq, Repr

structure Interval where
  months : BitVec 32
  days : BitVec 32
  micros : BitVec 64
  deriving DecidableEq, Repr

/-- `EdgeRecord`. The property pointer tells parallel edges apart. -/
structure EdgeRecord where
  label : LabelTriplet
  src : ℕ
  dst : ℕ
  prop : ℕ
  dir : Direction
  deriving DecidableEq, Repr

/-- `Value`. Floating point numbers are held as their bits. -/
inductive Value where
  | null
  | boolean (b : Bool)
  | int32 (v : BitVec 32)
  | uint32 (v : BitVec 32)
  | int64 (v : BitVec 64)
  | uint64 (v : BitVec 64)
  | float (bits : BitVec 32)
  | double (bits : BitVec 64)
  | varchar (s : List UInt8)
  | date (d : Date)
  | timestampMs (millis : BitVec 64)
  | interval (i : Interval)
  | vertex (v : VertexRecord)
  | edge (e : EdgeRecord)
  | path (p : Path ℕ)
  | list (vs : List Value)
  | struct (vs : List Value)

/-- A vertex that a graph can have: the last label and the last vid stand for no vertex. -/
def VertexRecord.Valid (v : VertexRecord) : Prop := v.label < 255 ∧ v.vid < 2 ^ 32 - 1

instance (v : VertexRecord) : Decidable v.Valid := inferInstanceAs (Decidable (_ ∧ _))

def EdgeRecord.Valid (e : EdgeRecord) : Prop :=
  e.label.srcLabel < 255 ∧ e.label.dstLabel < 255 ∧ e.label.edgeLabel < 256 ∧
    e.src < 2 ^ 32 - 1 ∧ e.dst < 2 ^ 32 - 1

instance (e : EdgeRecord) : Decidable e.Valid :=
  inferInstanceAs (Decidable (_ ∧ _ ∧ _ ∧ _ ∧ _))

namespace SimpleType

/-- The values of a type other than null. A length is an `int`. -/
def Holds : SimpleType → Value → Prop
  | boolean, v => ∃ b, v = .boolean b
  | int32, v => ∃ x, v = .int32 x
  | uint32, v => ∃ x, v = .uint32 x
  | int64, v => ∃ x, v = .int64 x
  | uint64, v => ∃ x, v = .uint64 x
  | float, v => ∃ bits, v = .float bits
  | double, v => ∃ bits, v = .double bits
  | varchar, v => ∃ s, v = .varchar s ∧ s.length < 2 ^ 31
  | date, v => ∃ d, v = .date d
  | timestampMs, v => ∃ millis, v = .timestampMs millis
  | interval, v => ∃ i, v = .interval i
  | vertex, v => ∃ x, v = .vertex x ∧ x.Valid
  | edge, v => ∃ e, v = .edge e ∧ e.Valid
  | path, v => ∃ p : Path ℕ, v = .path p ∧ (∀ x ∈ p.nodes, x.Valid) ∧ p.nodes.length < 2 ^ 31

end SimpleType

def HasType : DataType → Value → Prop
  | .simple id, v => v = .null ∨ id.Holds v
  | .list t, v => v = .null ∨ ∃ vs, v = .list vs ∧ vs.length < 2 ^ 31 ∧ ∀ x ∈ vs, HasType t x
  | .struct ts, v => v = .null ∨ ∃ vs, v = .struct vs ∧ vs.length < 2 ^ 31 ∧ HasTypes ts vs
where
  HasTypes : List DataType → List Value → Prop
    | [], vs => vs = []
    | t :: ts, vs => ∃ x xs, vs = x :: xs ∧ HasType t x ∧ HasTypes ts xs

theorem hasTypes_iff {ts : List DataType} {vs : List Value} :
    HasType.HasTypes ts vs ↔ List.Forall₂ HasType ts vs := by
  induction ts generalizing vs with
  | nil => simp [HasType.HasTypes]
  | cons t ts ih =>
    simp only [HasType.HasTypes, ih]
    constructor
    · intro h
      obtain ⟨x, xs, rfl, hx, hxs⟩ := h
      exact .cons hx hxs
    · intro h
      cases h with
      | cons hx hxs => exact ⟨_, _, rfl, hx, hxs⟩

theorem hasType_null (t : DataType) : HasType t .null := by
  cases t with
  | simple id => exact .inl rfl
  | list t => exact .inl rfl
  | struct ts => exact .inl rfl

/-- `year_month_day::to_days`. The year is kept in a `short`. -/
def Date.toDays (d : Date) : ℤ :=
  let m : ℤ := d.month.toNat
  let y : ℤ := (d.year.setWidth 16).toInt - if m ≤ 2 then 1 else 0
  let era : ℤ := (if 0 ≤ y then y else y - 399).tdiv 400
  let yoe : ℤ := y - era * 400
  let doy : ℤ := (153 * (if 2 < m then m - 3 else m + 9) + 2) / 5 + d.day.toNat - 1
  let doe : ℤ := yoe * 365 + yoe / 4 - yoe / 100 + doy
  era * 146097 + doe - 719468

/-- `Date::to_timestamp`, in milliseconds. -/
def Date.toTimestamp (d : Date) : ℤ := (d.toDays * 86400 + d.hour.toNat * 3600) * 1000

def Interval.toMillSeconds (i : Interval) : ℤ :=
  i.micros.toInt.tdiv 1000 + i.days.toInt * 86400000

def putByte (v : ℕ) : List UInt8 := [UInt8.ofNat v]
def putInt (v : BitVec 32) : List UInt8 := leBytes 4 v.toNat
def putLong (v : BitVec 64) : List UInt8 := leBytes 8 v.toNat
def putStringView (s : List UInt8) : List UInt8 := putInt (BitVec.ofNat 32 s.length) ++ s
def putVertex (v : VertexRecord) : List UInt8 := putByte v.label ++ putInt (BitVec.ofNat 32 v.vid)

def putEdge (e : EdgeRecord) : List UInt8 :=
  putByte e.label.srcLabel ++ putByte e.label.dstLabel ++ putByte e.label.edgeLabel ++
    putInt (BitVec.ofNat 32 e.src) ++ putInt (BitVec.ofNat 32 e.dst) ++
    putByte (if e.dir = .out then 1 else 0)

mutual

def encodeValue : Value → List UInt8
  | .null => putInt (-1)
  | .boolean b => putByte (if b then 1 else 0)
  | .int32 v => putInt v
  | .uint32 v => putInt v
  | .int64 v => putLong v
  | .uint64 v => putLong v
  | .float bits => putInt bits
  | .double bits => putLong bits
  | .varchar s => putStringView s
  | .date d => putLong (BitVec.ofInt 64 d.toTimestamp)
  | .timestampMs millis => putLong millis
  | .interval i => putLong (BitVec.ofInt 64 i.toMillSeconds)
  | .vertex v => putVertex v
  | .edge e => putEdge e
  | .path p => putInt (BitVec.ofNat 32 (p.length + 1)) ++ p.nodes.flatMap putVertex
  | .list vs => putInt (BitVec.ofNat 32 vs.length) ++ encodeValues vs
  | .struct vs => putInt (BitVec.ofNat 32 vs.length) ++ encodeValues vs

def encodeValues : List Value → List UInt8
  | [] => []
  | v :: vs => encodeValue v ++ encodeValues vs

end

theorem encodeValues_eq (vs : List Value) : encodeValues vs = vs.flatMap encodeValue := by
  induction vs with
  | nil => rfl
  | cons v vs ih => rw [encodeValues, ih, List.flatMap_cons]

end Neug.Execution
