import Neug.Lib.LittleEndian

/-! Files of the write-ahead log: `LocalWalWriter::append`, which grows its file in units of
`TRUNC_SIZE`, and `LocalWalParser::open`, which stops at a header whose timestamp is zero.
Bit-fields of `WalHeader` lie as on the usual little-endian targets: the type in the lowest bit
of the second word, the length in the 31 bits above it. -/
namespace Neug.Wal
open Neug.Lib

abbrev Bytes := List UInt8
def truncSize : ℕ := 2 ^ 30

/-- What one call of `write` stores at most; `append` is fatal beyond it. -/
def maxWrite : ℕ := 0x7ffff000
def headerSize : ℕ := 8

/-- What was written and the size the file was truncated to. The bytes between are zero. -/
structure WalFile where
  written : Bytes
  size : ℕ
  fits : written.length ≤ size

structure Record where
  timestamp : ℕ
  /-- Set for an update, clear for an insert. -/
  type : Bool
  payload : Bytes
  pos : 1 ≤ timestamp
  bounded : timestamp < 2 ^ 32
  accepted : headerSize + payload.length ≤ maxWrite

def packWord (type : Bool) (length : ℕ) : ℕ := length % 2 ^ 31 * 2 + type.toNat

/-- The signed 31-bit field `length` of a second word. -/
def lengthField (w : ℕ) : ℤ := if w / 2 < 2 ^ 30 then (w / 2 : ℕ) else (w / 2 : ℕ) - 2 ^ 31

def Record.encode (r : Record) : Bytes :=
  leBytes 4 r.timestamp ++ leBytes 4 (packWord r.type r.payload.length) ++ r.payload

namespace WalFile

def fresh : WalFile := ⟨[], truncSize, Nat.zero_le _⟩

/-- `file_size_` after an append that ends at `expected`. -/
def grownSize (size expected : ℕ) : ℕ :=
  if size < expected then (expected / truncSize + 1) * truncSize else size

theorem le_grownSize (size expected : ℕ) : expected ≤ grownSize size expected := by
  unfold grownSize
  split_ifs with h
  · exact (Nat.lt_div_mul_add (by decide)).le.trans_eq (Nat.succ_mul _ _).symm
  · exact Nat.le_of_not_lt h

def append (f : WalFile) (data : Bytes) : WalFile where
  written := f.written ++ data
  size := grownSize f.size (f.written.length + data.length)
  fits := by
    rw [List.length_append]
    exact le_grownSize _ _

def slice (f : WalFile) (offset n : ℕ) : Option Bytes :=
  if offset + n ≤ f.size then
    some ((List.range n).map fun i => f.written.getD (offset + i) 0)
  else none

def word (f : WalFile) (offset : ℕ) : Option ℕ := (f.slice offset 4).map leValue

end WalFile

def logFile (log : List Record) : WalFile :=
  log.foldl (fun f r => f.append r.encode) WalFile.fresh

/-- A unit points into a mapped file; `none` is `NULL`. -/
structure WalContentUnit where
  ptr : Option (ℕ × ℕ)
  size : ℕ
  deriving DecidableEq, Repr

def WalContentUnit.empty : WalContentUnit := ⟨none, 0⟩

structure UpdateWalUnit where
  timestamp : ℕ
  ptr : ℕ × ℕ
  size : ℕ
  deriving DecidableEq, Repr

structure LocalWalParser where
  insertWals : List WalContentUnit
  updateWals : List UpdateWalUnit
  lastTs : ℕ
  deriving DecidableEq, Repr

def resize (l : List WalContentUnit) (n : ℕ) : List WalContentUnit :=
  l.take n ++ List.replicate (n - l.length) .empty

/-- An `int` stored in a `size_t`. -/
def toSize (length : ℤ) : ℕ := (length % 2 ^ 64).toNat

namespace LocalWalParser

def initial : LocalWalParser := ⟨List.replicate 4096 .empty, [], 0⟩

/-- Make room for an index. The new size is a `uint32_t`. -/
def growFor (l : List WalContentUnit) (ts : ℕ) : List WalContentUnit :=
  if l.length ≤ ts then resize l ((ts + 1) % 2 ^ 32) else l

/-- `insert_wal_list_[ts] = unit`, after the list has grown. -/
def putInsert (l : List WalContentUnit) (ts : ℕ) (u : WalContentUnit) :
    Option (List WalContentUnit) :=
  if ts < (growFor l ts).length then some ((growFor l ts).set ts u) else none

/-- Enter the record with this header, whose payload starts at `ptr`. -/
def enter (p : LocalWalParser) (ts : ℕ) (type : Bool) (length : ℤ) (ptr : ℕ × ℕ) :
    Option LocalWalParser :=
  if type then
    some { p with updateWals := p.updateWals ++ [⟨ts, ptr, toSize length⟩]
                  lastTs := max ts p.lastTs }
  else
    (putInsert p.insertWals ts ⟨some ptr, toSize length⟩).map fun l =>
      { p with insertWals := l, lastTs := max ts p.lastTs }

/-- The loop over file number `i` from `offset` on. It has no result if it leaves the file or
does not end; lengths may be negative, so that it needs a bound. -/
def parseFile (i : ℕ) (f : WalFile) : ℕ → ℕ → LocalWalParser → Option LocalWalParser
  | 0, _, _ => none
  | fuel + 1, offset, p =>
    (f.word offset).bind fun ts =>
      if ts = 0 then some p
      else (f.word (offset + 4)).bind fun w =>
        let length := lengthField w
        let next : ℤ := (offset + headerSize : ℕ) + length
        (p.enter ts (w % 2 = 1) length (i, offset + headerSize)).bind fun p' =>
          if next < 0 then none else parseFile i f fuel next.toNat p'

def parseFiles (fuel : ℕ) : ℕ → List WalFile → LocalWalParser → Option LocalWalParser
  | _, [], p => some p
  | i, f :: fs, p => (parseFile i f fuel 0 p).bind (parseFiles fuel (i + 1) fs)

/-- Sort the update records; `std::sort` may exchange those of one timestamp. -/
def sortUpdates (p : LocalWalParser) : LocalWalParser :=
  { p with updateWals := p.updateWals.mergeSort fun u v => u.timestamp ≤ v.timestamp }

/-- `LocalWalParser::open`. Files of size zero are not mapped. -/
def openWals (fuel : ℕ) (files : List WalFile) : Option LocalWalParser :=
  (parseFiles fuel 0 (files.filter fun f => f.size ≠ 0) initial).map sortUpdates

/-- `get_insert_wal`, an index without a check. -/
def getInsertWal (p : LocalWalParser) (ts : ℕ) : Option WalContentUnit := p.insertWals[ts]?

end LocalWalParser

def content (files : List WalFile) (ptr : Option (ℕ × ℕ)) (size : ℕ) : Option Bytes :=
  ptr.bind fun x => (files[x.1]?).bind fun f => f.slice x.2 size

end Neug.Wal
