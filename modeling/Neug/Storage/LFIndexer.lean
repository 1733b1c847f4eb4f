import Neug.Lib.Call
import Neug.Lib.Probing

/-! `LFIndexer`: primary keys and the local ids they get, one after another. The keys lie in a
column; a table of ids, probed linearly from the hash of a key on, finds the id of a key. -/
namespace Neug.Storage
open Neug.Lib Neug.Lib.Probing

/-- What the indexer uses of a `ColumnBase`. Nothing is assumed of the functions: a string column
cuts off long values. `reload` is a dump followed by an open. -/
class KeyColumn (C : Type) (K : outParam Type) where
  size : C → ℕ
  resize : ℕ → C → C
  /-- No result stands for an exception. -/
  setAny : ℕ → K → C → Option C
  /-- No result stands for an index outside the column. -/
  getProp : C → ℕ → Option K
  reload : C → C

structure FixedColumn (K : Type) where
  cells : List K
  deriving DecidableEq, Repr

instance {K : Type} [Zero K] : KeyColumn (FixedColumn K) K where
  size c := c.cells.length
  resize n c := ⟨c.cells.take n ++ List.replicate (n - c.cells.length) 0⟩
  setAny i k c := if i < c.cells.length then some ⟨c.cells.set i k⟩ else none
  getProp c i := c.cells[i]?
  reload c := c

/-- The members of `LFIndexer`. `modulus` is the prime behind the current function of the hash
policy, zero for `mod0`. -/
structure LFIndexer (C : Type) where
  keys : C
  indices : List ℕ
  numElements : ℕ
  numSlotsMinusOne : ℕ
  modulus : ℕ
  deriving DecidableEq, Repr

inductive IndexerError where
  | reservedSize (capacity ind : ℕ)
  | column
  deriving DecidableEq, Repr

abbrev IndexerCall (C α : Type) := Call (LFIndexer C) IndexerError α

/-- The largest `INDEX_T`. -/
def sentinel : ℕ := 2 ^ 32 - 1

/-- The table of `prime_number_hash_policy`. -/
def primeList : List ℕ :=
  [2, 3, 5, 7, 11, 13, 17, 23, 29, 37, 47, 59, 73, 97, 127, 151, 197, 251, 313, 397, 499, 631,
    797, 1009, 1259, 1597, 2011, 2539, 3203, 4027, 5087, 6421, 8089, 10193, 12853, 16193, 20399,
    25717, 32401, 40823, 51437, 64811, 81649, 102877, 129607, 163307, 205759, 259229, 326617,
    411527, 518509, 653267, 823117, 1037059, 1306601, 1646237, 2074129, 2613229, 3292489,
    4148279, 5226491, 6584983, 8296553, 10453007, 13169977, 16593127, 20906033, 26339969,
    33186281, 41812097, 52679969, 66372617, 83624237, 105359939, 132745199, 167248483, 210719881,
    265490441, 334496971, 421439783, 530980861, 668993977, 842879579, 1061961721, 1337987929,
    1685759167, 2123923447, 2675975881, 3371518343, 4247846927, 5351951779, 6743036717,
    8495693897, 10703903591, 13486073473, 16991387857, 21407807219, 26972146961, 33982775741,
    42815614441, 53944293929, 67965551447, 85631228929, 107888587883, 135931102921, 171262457903,
    215777175787, 271862205833, 342524915839, 431554351609, 543724411781, 685049831731,
    863108703229, 1087448823553, 1370099663459, 1726217406467, 2174897647073, 2740199326961,
    3452434812973, 4349795294267, 5480398654009, 6904869625999, 8699590588571, 10960797308051,
    13809739252051, 17399181177241, 21921594616111, 27619478504183, 34798362354533,
    43843189232363, 55238957008387, 69596724709081, 87686378464759, 110477914016779,
    139193449418173, 175372756929481, 220955828033581, 278386898836457, 350745513859007,
    441911656067171, 556773797672909, 701491027718027, 883823312134381, 1113547595345903,
    1402982055436147, 1767646624268779, 2227095190691797, 2805964110872297, 3535293248537579,
    4454190381383713, 5611928221744609, 7070586497075177, 8908380762767489, 11223856443489329,
    14141172994150357, 17816761525534927, 22447712886978529, 28282345988300791,
    35633523051069991, 44895425773957261, 56564691976601587, 71267046102139967,
    89790851547914507, 113129383953203213, 142534092204280003, 179581703095829107,
    226258767906406483, 285068184408560057, 359163406191658253, 452517535812813007,
    570136368817120201, 718326812383316683, 905035071625626043, 1140272737634240411,
    1436653624766633509, 1810070143251252131, 2280545475268481167, 2873307249533267101,
    3620140286502504283, 4561090950536962147, 5746614499066534157, 7240280573005008577,
    9122181901073924329, 11493228998133068689, 14480561146010017169, 18446744073709551557]

/-- `next_size_over`: the first prime that is not smaller, or the last one. -/
def nextSizeOver (size : ℕ) : ℕ := (primeList.find? fun p => size ≤ p).getD 18446744073709551557

namespace LFIndexer

variable {C K : Type} [KeyColumn C K]

def create (keys : C) : LFIndexer C := ⟨keys, [], 0, 0, 0⟩
def capacity (x : LFIndexer C) : ℕ := KeyColumn.size x.keys
def indexForHash (modulus h : ℕ) : ℕ := if modulus = 0 then 0 else h % modulus

def place (m modulus h ind : ℕ) (slots : List ℕ) : Option (List ℕ) :=
  (walk slots m (fun v => some (v = sentinel)) m (indexForHash modulus h)).map fun i =>
    slots.set i ind

section

variable [DecidableEq K] (hash : K → ℕ)

def matchesKey (keys : C) (k : K) (ind : ℕ) : Option Bool :=
  if ind = sentinel then some true else (KeyColumn.getProp keys ind).map fun k' => k' = k

def lookup (x : LFIndexer C) (k : K) : Option ℕ :=
  (walk x.indices (x.numSlotsMinusOne + 1) (matchesKey x.keys k) (x.numSlotsMinusOne + 1)
    (indexForHash x.modulus (hash k))).bind fun i => x.indices[i]?

def getIndex (x : LFIndexer C) (k : K) : Option (Option ℕ) :=
  if x.indices.length = 0 then some none
  else (lookup hash x k).map fun ind => if ind = sentinel then none else some ind

/-- `contains`, which does not ask whether there are slots. -/
def contains (x : LFIndexer C) (k : K) : Option Bool :=
  (lookup hash x k).map fun ind => ind ≠ sentinel

def getKey (x : LFIndexer C) (i : ℕ) : Option K := KeyColumn.getProp x.keys i

/-- The bits of `oid_set`: which keys the old table contains. -/
def marks (x : LFIndexer C) : Option (List Bool) :=
  (List.range x.numElements).mapM fun idx =>
    (KeyColumn.getProp x.keys idx).bind (x.contains hash)

/-- The last loop of `rehash`, from id `idx` on. -/
def refill (keys : C) (prime : ℕ) : ℕ → List Bool → List ℕ → Option (List ℕ)
  | _, [], slots => some slots
  | idx, marked :: rest, slots =>
    (KeyColumn.getProp keys idx).bind fun k =>
      if marked then
        (place prime prime (hash k) idx slots).bind (refill keys prime (idx + 1) rest)
      else refill keys prime (idx + 1) rest slots

/-- The table of `rehash` with `prime` slots. The column has its new size already. -/
def rebuild (x : LFIndexer C) (prime : ℕ) : Option (LFIndexer C) :=
  (x.marks hash).bind fun bits =>
    (refill hash x.keys prime 0 bits (List.replicate prime sentinel)).map fun slots =>
      { x with indices := slots, numSlotsMinusOne := prime - 1, modulus := prime }

/-- `rehash`. The load factor is one half. -/
def rehash (n : ℕ) (x : LFIndexer C) : Option (LFIndexer C) :=
  let resized := { x with keys := KeyColumn.resize (max n 4) x.keys }
  if 2 * max n 4 = x.indices.length then some resized
  else rebuild hash resized (nextSizeOver (2 * max n 4))

def reserve (n : ℕ) (x : LFIndexer C) : Option (LFIndexer C) := rehash hash (max n x.numElements) x

end

/-- `insert` of a key after its id has been taken. -/
def store (hash : K → ℕ) (k : K) (ind : ℕ) : IndexerCall C ℕ := do
  let x ← Call.read
  match KeyColumn.setAny ind k x.keys with
  | none => Call.raise .column
  | some keys => do
    let slots ← Call.defined
      (place (x.numSlotsMinusOne + 1) x.modulus (hash k) ind x.indices)
    Call.modify fun x => { x with keys := keys, indices := slots }
    pure ind

/-- `insert` without `insert_safe`. The counter is a `size_t` and an id an `INDEX_T`. -/
def insert (hash : K → ℕ) (k : K) : IndexerCall C ℕ := do
  let x ← Call.read
  Call.modify fun x => { x with numElements := x.numElements + 1 }
  if x.capacity ≤ x.numElements % 2 ^ 32 then
    Call.raise (.reservedSize x.capacity (x.numElements % 2 ^ 32))
  else store hash k (x.numElements % 2 ^ 32)

/-- `insert` with `insert_safe`: a full indexer grows by a quarter before. -/
def insertSafe [DecidableEq K] (hash : K → ℕ) (k : K) : IndexerCall C ℕ := do
  let x ← Call.read
  let grown ← Call.defined (if x.capacity ≤ x.numElements then
    reserve hash (x.capacity + x.capacity / 4) x else some x)
  Call.modify fun _ => { grown with numElements := x.numElements + 1 }
  store hash k (x.numElements % 2 ^ 32)

/-- `dump` and `open`: the slots and the numbers come back as they were. -/
def reopen (x : LFIndexer C) : LFIndexer C := { x with keys := KeyColumn.reload x.keys }

end LFIndexer

end Neug.Storage
