import Mathlib

/-! `MutableCsr`: adjacency lists whose entries carry a timestamp. A deleted edge stays in its
list as a tombstone until the list is compacted. -/
namespace Neug.Storage
open List

/-- `INVALID_TIMESTAMP`, the timestamp of a tombstone. -/
def invalidTimestamp : ℕ := 2 ^ 32 - 1

scoped instance lawfulBEqPair : LawfulBEq (ℕ × ℕ) := inferInstance

structure Nbr (D : Type) where
  neighbor : ℕ
  timestamp : ℕ
  data : D
  deriving DecidableEq, Repr

/-- The adjacency lists in the order of the vertices, with `edge_num_` and `unsorted_since_`.
Buffers, their capacities and the locks are not part of the model. -/
structure MutableCsr (D : Type) where
  adj : List (List (Nbr D))
  edgeNum : ℤ
  unsortedSince : ℕ
  deriving DecidableEq, Repr

inductive CsrError where
  | sourceOutOfRange (src size : ℕ)
  | outOfBound
  | neighborNotMatch
  | notDeleted
  | inconsistentEdgeCount (expected actual : ℤ)
  deriving DecidableEq, Repr

variable {D : Type}

namespace Nbr

def tombstone (n : Nbr D) : Nbr D := { n with timestamp := invalidTimestamp }
def alive (n : Nbr D) : Bool := n.timestamp ≠ invalidTimestamp
def visible (t : ℕ) (n : Nbr D) : Bool := n.timestamp ≤ t

end Nbr

namespace MutableCsr

def empty : MutableCsr D := ⟨[], 0, 0⟩

/-- `vertex_capacity`. -/
def size (c : MutableCsr D) : ℕ := c.adj.length
def list (c : MutableCsr D) (v : ℕ) : List (Nbr D) := c.adj.getD v []

def resize (c : MutableCsr D) (vnum : ℕ) : MutableCsr D :=
  { c with adj := c.adj.take vnum ++ List.replicate (vnum - c.size) [] }

def push (c : MutableCsr D) (src : ℕ) (n : Nbr D) : MutableCsr D :=
  { c with adj := c.adj.set src (c.list src ++ [n]), edgeNum := c.edgeNum + 1 }

/-- `put_edge`. The offset it returns is the length of the list before the call. -/
def putEdge (c : MutableCsr D) (src dst : ℕ) (data : D) (ts : ℕ) :
    Except CsrError (MutableCsr D) :=
  if c.size ≤ src then .error (.sourceOutOfRange src c.size)
  else .ok (c.push src ⟨dst, ts, data⟩)

/-- One round of the last loop of `batch_put_edges`; a source without a list is skipped. -/
def putRow (ts : ℕ) (c : MutableCsr D) (row : ℕ × ℕ × D) : MutableCsr D :=
  if row.1 < c.size then c.push row.1 ⟨row.2.1, ts, row.2.2⟩ else c

def batchPutEdges (c : MutableCsr D) (rows : List (ℕ × ℕ × D)) (ts : ℕ) : MutableCsr D :=
  rows.foldl (putRow ts) c

def setNbr (c : MutableCsr D) (src offset : ℕ) (n : Nbr D) : MutableCsr D :=
  { c with adj := c.adj.set src ((c.list src).set offset n) }

/-- `delete_edge`. An entry that is not visible at `ts` is left alone. -/
def deleteEdge (c : MutableCsr D) (src offset ts : ℕ) : Except CsrError (MutableCsr D) :=
  match (c.list src)[offset]? with
  | none => .error .outOfBound
  | some n =>
    if n.timestamp ≤ ts then
      .ok { c.setNbr src offset n.tombstone with edgeNum := c.edgeNum - 1 }
    else .ok c

def revertDeleteEdge (c : MutableCsr D) (src nbr offset ts : ℕ) :
    Except CsrError (MutableCsr D) :=
  match (c.list src)[offset]? with
  | none => .error .outOfBound
  | some n =>
    if n.neighbor ≠ nbr then .error .neighborNotMatch
    else if n.timestamp = invalidTimestamp then
      .ok { c.setNbr src offset { n with timestamp := ts } with edgeNum := c.edgeNum + 1 }
    else .error .notDeleted

/-- One offset of `batch_delete_edges`. -/
def tombstoneAt (c : MutableCsr D) (p : ℕ × ℕ) : MutableCsr D :=
  match (c.list p.1)[p.2]? with
  | none => c
  | some n =>
    { c.setNbr p.1 p.2 n.tombstone with
        edgeNum := if n.alive then c.edgeNum - 1 else c.edgeNum }

/-- `batch_delete_edges` by offsets. The source visits a sorted set of them; the order and
repetitions make no difference. -/
def batchDeleteOffsets (c : MutableCsr D) (edges : List (ℕ × ℕ)) : MutableCsr D :=
  edges.foldl tombstoneAt c

/-- `batch_delete_edges` by end points. The count goes down for tombstones as well. -/
def batchDeletePairs (c : MutableCsr D) (pairs : List (ℕ × ℕ)) : MutableCsr D :=
  { c with
    adj := c.adj.mapIdx fun src l => l.map fun n =>
      if (src, n.neighbor) ∈ pairs then n.tombstone else n
    edgeNum := c.edgeNum - (c.adj.mapIdx fun src l =>
      l.countP fun n => (src, n.neighbor) ∈ pairs).sum }

def batchDeleteVertices (c : MutableCsr D) (srcSet dstSet : Finset ℕ) : MutableCsr D :=
  { c with
    adj := c.adj.mapIdx fun src l =>
      if src ∈ srcSet then [] else l.filter fun n => n.neighbor ∉ dstSet
    edgeNum := c.edgeNum - (c.adj.mapIdx fun src l =>
      l.countP fun n => n.alive ∧ (src ∈ srcSet ∨ n.neighbor ∈ dstSet)).sum }

/-- `compact`. The lists are rewritten before the count is compared. -/
def compact (c : MutableCsr D) : MutableCsr D × Except CsrError Unit :=
  let c' := { c with adj := c.adj.map fun l => l.filter Nbr.alive }
  let total : ℤ := (c'.adj.map List.length).sum
  (c', if total = c.edgeNum then .ok () else .error (.inconsistentEdgeCount c.edgeNum total))

/-- `batch_sort_by_edge_data`, with one of the orders that `std::sort` may give to entries
with equal data. -/
def batchSortByEdgeData (lt : D → D → Bool) (c : MutableCsr D) (ts : ℕ) : MutableCsr D :=
  { c with adj := c.adj.map fun l => l.insertionSort fun a b => lt b.data a.data = false
           unsortedSince := ts }

def resetTimestamp (c : MutableCsr D) : MutableCsr D :=
  { c with adj := c.adj.map fun l => l.map fun n =>
      if n.alive then { n with timestamp := 0 } else n }

/-- `batch_export`: the entries that are not tombstones, with their sources. -/
def batchExport (c : MutableCsr D) : List (ℕ × ℕ × D) :=
  (c.adj.mapIdx fun src l => (l.filter Nbr.alive).map fun n => (src, n.neighbor, n.data)).flatten

/-- A generic view at a timestamp: the visible entries of every list, with their sources. -/
def view (c : MutableCsr D) (t : ℕ) : List (ℕ × ℕ × D) :=
  (c.adj.mapIdx fun src l =>
    (l.filter (Nbr.visible t)).map fun n => (src, n.neighbor, n.data)).flatten

/-- The offsets of the entries that satisfy `p`, in the order of the list. -/
def offsets (p : Nbr D → Bool) (l : List (Nbr D)) : List ℕ :=
  (l.zipIdx.filter fun x => p x.1).map Prod.snd

/-- `begin() += k` in the list of `v`, read at `t`: the offset and the entry it arrives at, or
`none` at the end of the list. No result stands for a vertex without a list and for a walk
beyond the end. -/
def advance (c : MutableCsr D) (v t k : ℕ) : Option (Option (ℕ × Nbr D)) :=
  if c.size ≤ v then none
  else
    match (offsets (Nbr.visible t) (c.list v))[k]? with
    | some i => ((c.list v)[i]?).map fun n => some (i, n)
    | none => if k = (offsets (Nbr.visible t) (c.list v)).length then some none else none

theorem mem_offsets {p : Nbr D → Bool} {l : List (Nbr D)} {i : ℕ} :
    i ∈ offsets p l ↔ ∃ n, l[i]? = some n ∧ p n = true := by
  unfold offsets
  simp only [mem_map, mem_filter, Prod.exists, mem_zipIdx_iff_getElem?]
  constructor
  · rintro ⟨n, j, ⟨hn, hp⟩, rfl⟩
    exact ⟨n, hn, hp⟩
  · rintro ⟨n, hn, hp⟩
    exact ⟨n, i, ⟨hn, hp⟩, rfl⟩

theorem length_offsets (p : Nbr D → Bool) (l : List (Nbr D)) :
    (offsets p l).length = l.countP p := by
  unfold offsets
  rw [length_map, ← countP_eq_length_filter]
  conv_rhs => rw [← zipIdx_map_fst 0 l, countP_map]
  rfl

@[simp] theorem size_setNbr (c : MutableCsr D) (src offset : ℕ) (n : Nbr D) :
    (c.setNbr src offset n).size = c.size := by
  simp [setNbr, size]

@[simp] theorem size_push (c : MutableCsr D) (src : ℕ) (n : Nbr D) :
    (c.push src n).size = c.size := by
  simp [push, size]

variable {v : ℕ} {c : MutableCsr D}

theorem list_of_size_le (h : c.size ≤ v) : c.list v = [] :=
  getD_eq_default _ _ h

theorem lt_size_of_getElem? {i : ℕ} {n : Nbr D} (h : (c.list v)[i]? = some n) : v < c.size := by
  by_contra hv
  simp [list_of_size_le (not_lt.mp hv)] at h

theorem list_set (hv : v < c.size) (l : List (Nbr D)) (u : ℕ) :
    (c.adj.set v l).getD u [] = if u = v then l else c.list u := by
  unfold list
  by_cases hu : u = v
  · subst hu
    simp [getElem?_set_self hv]
  · simp [getElem?_set_ne (Ne.symm hu), hu]

theorem list_setNbr (hv : v < c.size) (i : ℕ) (n : Nbr D) (u : ℕ) :
    (c.setNbr v i n).list u = if u = v then (c.list v).set i n else c.list u :=
  list_set hv _ u

theorem list_push (hv : v < c.size) (n : Nbr D) (u : ℕ) :
    (c.push v n).list u = if u = v then c.list v ++ [n] else c.list u :=
  list_set hv _ u

theorem getD_mapIdx (adj : List (List (Nbr D))) (f : ℕ → List (Nbr D) → List (Nbr D))
    (hf : ∀ v, f v [] = []) (v : ℕ) : (adj.mapIdx f).getD v [] = f v (adj.getD v []) := by
  simp only [getD_eq_getElem?_getD, getElem?_mapIdx]
  cases adj[v]? <;> simp [hf]

theorem getD_map (adj : List (List (Nbr D))) (f : List (Nbr D) → List (Nbr D))
    (hf : f [] = []) (v : ℕ) : (adj.map f).getD v [] = f (adj.getD v []) := by
  simp only [getD_eq_getElem?_getD, getElem?_map]
  cases adj[v]? <;> simp [hf]

end MutableCsr

end Neug.Storage
