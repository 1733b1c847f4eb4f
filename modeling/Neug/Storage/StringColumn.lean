import Neug.Lib.Buffer
import Neug.Lib.Reach

/-! `TypedColumn<std::string_view>`: a buffer of packed items that point into an append-only buffer of
bytes. Sizes are natural numbers; the number of rows is far below the range of `size_t`. -/
namespace Neug.Storage
open Neug.Lib

/-- The bytes of a `std::string_view`. -/
abbrev Str := List UInt8

/-- The length of a UTF-8 character by its first byte, 0 if no character starts with it. -/
def charLength (ch : UInt8) : ℕ :=
  if ch &&& 0x80 = 0 then 1
  else if ch &&& 0xE0 = 0xC0 then 2
  else if ch &&& 0xF0 = 0xE0 then 3
  else if ch &&& 0xF8 = 0xF0 then 4
  else 0

/-- The loop of `truncate_utf8`. A test of the loop condition costs one unit of fuel. -/
def truncateLoop (str : Str) (length : ℕ) : ℕ → ℕ → Option ℕ
  | 0, _ => none
  | fuel + 1, byteCount =>
    (str[byteCount]?).bind fun ch =>
      if ch = 0 ∨ length ≤ byteCount then some byteCount
      else if length < byteCount + charLength ch then some byteCount
      else truncateLoop str length fuel (byteCount + charLength ch)

/-- `truncate_utf8`. No result stands for the loop that stays at a byte no character starts with. -/
def truncateUtf8 (str : Str) (length : ℕ) : Option Str :=
  if str.length ≤ length then some str
  else (truncateLoop str length (length + 1) 0).map fun n => str.take n

/-- `string_item`, with fields of 48 and 16 bits. -/
structure StringItem where
  offset : ℕ
  length : ℕ
  deriving DecidableEq, Repr

def StringItem.pack (offset length : ℕ) : StringItem := ⟨offset % 2 ^ 48, length % 2 ^ 16⟩

/-- `items_buffer_` (with `size_` items), `data_buffer_`, `pos_` and `width_`. -/
structure StringColumn where
  items : List StringItem
  data : Str
  pos : ℕ
  width : ℕ
  deriving DecidableEq, Repr

/-- `MMapContainer::Resize`, for any type of entries. A mapping has less than 2^47 bytes, else `mmap`
fails; new memory is filled with zeros. -/
def resizeContainer {α : Type} (zero : α) (entryBytes n : ℕ) (l : List α) : Option (List α) :=
  if entryBytes * n < 2 ^ 47 then some (fit zero n l) else none

namespace StringColumn

variable (c : StringColumn)

def empty (width : ℕ) : StringColumn := ⟨[], [], 0, width⟩

/-- `get_view`. No result stands for a read outside the data buffer. -/
def getView (i : ℕ) : Option Str :=
  (c.items[i]?).bind fun item => slice c.data item.offset item.length

def stringAvgSize (items : List StringItem) : ℕ :=
  let nonZero := items.filter (0 < ·.length)
  if nonZero = [] then 0 else (nonZero.map StringItem.length).sum / nonZero.length

def resize (size : ℕ) : Option StringColumn :=
  let avgSize := if 0 < stringAvgSize c.items then stringAvgSize c.items else c.width
  let newSize := if c.items = [] then max (size * c.width) c.pos else max (size * avgSize) c.pos
  (resizeContainer ⟨0, 0⟩ 8 size c.items).bind fun items =>
    (resizeContainer 0 1 newSize c.data).map fun data => { c with items := items, data := data }

/-- `set_value`. It throws if the index is out of range or the buffer has not enough space. -/
def setValue (i : ℕ) (val : Str) : Option StringColumn :=
  (if c.width ≤ val.length then truncateUtf8 val c.width else some val).bind fun copied =>
    if i < c.items.length ∧ c.pos + copied.length ≤ c.data.length then
      some { c with
        items := c.items.set i (.pack c.pos copied.length)
        data := overwrite c.data c.pos copied
        pos := c.pos + copied.length }
    else none

/-- `set_any`: the buffer is enlarged first if the value does not fit. -/
def setAny (i : ℕ) (val : Str) : Option StringColumn :=
  if c.items.length ≤ i then none
  else if c.data.length < c.pos + val.length then
    let newAvgWidth := (c.pos + i) / (i + 1)
    let newLen := max (c.items.length * newAvgWidth % 2 ^ 64) (c.pos + val.length)
    (resizeContainer 0 1 newLen c.data).bind fun data => setValue { c with data := data } i val
  else c.setValue i val

/-- The loop that sets the rows behind `start` to the item of `start`. -/
def copyItem (items : List StringItem) (start : ℕ) : List StringItem :=
  items.take (start + 1) ++
    List.replicate (items.length - (start + 1)) (items.getD start ⟨0, 0⟩)

/-- `resize` with a default value. The first new row is set, and the others get its item. -/
def resizeDefault (size : ℕ) (defaultValue : Str) : Option StringColumn :=
  (truncateUtf8 defaultValue c.width).bind fun defaultStr =>
    (resizeContainer ⟨0, 0⟩ 8 size c.items).bind fun items =>
      let needed := c.pos + (size - c.items.length) * c.width
      (resizeContainer 0 1 (max needed (size * stringAvgSize items)) c.data).bind fun data =>
        if defaultStr = [] ∨ size ≤ c.items.length then some { c with items := items, data := data }
        else (setValue { c with items := items, data := data } c.items.length defaultStr).map
          fun c' => { c' with items := copyItem c'.items c.items.length }

/-- The state of the loop of `dump`: the bytes and items written so far, `cur_item`, `pre_item` and
`count_no_empty`. The variable `offset` is the number of bytes written. -/
structure Dumped where
  dataOut : Str
  itemOut : List StringItem
  curItem : StringItem
  preItem : StringItem
  countNoEmpty : ℕ

def Dumped.row (data : Str) (d : Dumped) (item : StringItem) : Option Dumped :=
  if item = d.preItem then some { d with itemOut := d.itemOut ++ [d.curItem] }
  else (slice data item.offset item.length).map fun bytes =>
    ⟨d.dataOut ++ bytes, d.itemOut ++ [.pack d.dataOut.length item.length],
      .pack d.dataOut.length item.length, item,
      d.countNoEmpty + if 0 < item.length then 1 else 0⟩

/-- The loop. `cur_item` is declared without a value, so that it starts as what the memory holds. -/
def dumpRows (garbage : StringItem) : Option Dumped :=
  c.items.foldlM (Dumped.row c.data) ⟨[], [], garbage, ⟨0, 0⟩, 0⟩

def containerFile (data : Str) : Str := List.replicate 16 0 ++ data

/-- `MMapContainer::Open`. An empty file gives an empty container. -/
def openContainer (file : Str) : Option Str :=
  if file = [] then some []
  else if file.length < 16 then none
  else some (file.drop 16)

/-- `truncated_size`: an estimate from the average length. -/
def truncatedSize (d : Dumped) : ℕ :=
  (if 0 < d.countNoEmpty then d.dataOut.length / d.countNoEmpty else c.width) *
    max (c.items.length + (c.items.length + 3) / 4) 4096

/-- `dump`, then `open` on the files that were written. The data file is truncated, header included,
and `pos_` is written as it is. -/
def dumpOpen (garbage : StringItem) : Option StringColumn :=
  (c.dumpRows garbage).bind fun d =>
    if c.truncatedSize d < 2 ^ 47 then
      (openContainer (fit 0 (c.truncatedSize d) (containerFile d.dataOut))).map fun data =>
        { c with items := d.itemOut, data := data }
    else none

end StringColumn

/-- The calls. The value that `dump` finds in `cur_item` is an input of the run. -/
inductive ColumnCall where
  | resize (size : ℕ)
  | resizeDefault (size : ℕ) (defaultValue : Str)
  | setAny (i : ℕ) (val : Str)
  | setValue (i : ℕ) (val : Str)
  | dumpOpen (garbage : StringItem)
  deriving DecidableEq, Repr

def StringColumn.call (c : StringColumn) : ColumnCall → Option StringColumn
  | .resize size => c.resize size
  | .resizeDefault size d => c.resizeDefault size d
  | .setAny i val => c.setAny i val
  | .setValue i val => c.setValue i val
  | .dumpOpen garbage => c.dumpOpen garbage

end Neug.Storage
