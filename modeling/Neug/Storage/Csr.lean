import Neug.Storage.SingleCsr

/-! The four kinds of CSR behind the interface `CsrBase`, and calls of its member functions one
after another. -/
namespace Neug.Storage
open List

inductive Csr (D : Type) where
  | mutable (c : MutableCsr D)
  | singleMutable (c : SingleMutableCsr D)
  | immutable (c : ImmutableCsr D)
  | singleImmutable (c : SingleImmutableCsr D)
  deriving DecidableEq, Repr

/-- A call of a member function. What new memory holds is given with `resize`. -/
inductive CsrCall (D : Type) where
  | putEdge (src dst : ℕ) (data : D) (ts : ℕ)
  | batchPutEdges (rows : List (ℕ × ℕ × D)) (ts : ℕ)
  | deleteEdge (src offset ts : ℕ)
  | revertDeleteEdge (src nbr offset ts : ℕ)
  | batchDeleteOffsets (edges : List (ℕ × ℕ))
  | batchDeletePairs (pairs : List (ℕ × ℕ))
  | batchDeleteVertices (srcSet dstSet : Finset ℕ)
  | compact
  | resize (vnum : ℕ) (memory : ℕ → ℕ × D)
  | reopen

variable {D : Type}

namespace MutableCsr

/-- `dump`, then `open`. The lists are read before the count is compared with their lengths. -/
def reopen (c : MutableCsr D) : MutableCsr D × Except CsrError Unit :=
  let total : ℤ := (c.adj.map List.length).sum
  (c, if total = c.edgeNum then .ok () else .error (.inconsistentEdgeCount c.edgeNum total))

def liveNum (c : MutableCsr D) : ℕ := c.adj.flatten.countP Nbr.alive

end MutableCsr

namespace Csr

def edgeNum : Csr D → ℤ
  | .mutable c => c.edgeNum
  | .singleMutable c => c.edgeNum
  | .immutable c => c.edgeNum
  | .singleImmutable c => c.edgeNum

def liveNum : Csr D → ℕ
  | .mutable c => c.liveNum
  | .singleMutable c => c.liveNum
  | .immutable c => c.liveNum
  | .singleImmutable c => c.liveNum

/-- `get_generic_view`. An immutable CSR has no timestamps. -/
def view : Csr D → ℕ → List (ℕ × ℕ × D)
  | .mutable c, t => c.view t
  | .singleMutable c, t => c.view t
  | .immutable c, _ => c.view
  | .singleImmutable c, _ => c.view

/-- `put_edge`. No result stands for a call that ends the process: the immutable kinds do not have
the function. -/
def putEdge (src dst : ℕ) (data : D) (ts : ℕ) : Csr D → Option (Csr D)
  | .mutable c => some (.mutable ((c.putEdge src dst data ts).toOption.getD c))
  | .singleMutable c =>
    (c.putEdge src dst data ts).map fun r => .singleMutable (r.toOption.getD c)
  | .immutable _ | .singleImmutable _ => none

def immutableRows (rows : List (ℕ × ℕ × D)) : List (ℕ × ImmutableNbr D) :=
  rows.map fun row => (row.1, ⟨row.2.1, row.2.2⟩)

def batchPutEdges (rows : List (ℕ × ℕ × D)) (ts : ℕ) : Csr D → Option (Csr D)
  | .mutable c => some (.mutable (c.batchPutEdges rows ts))
  | .singleMutable c => some (.singleMutable (c.batchPutEdges rows ts))
  | .immutable c => (c.batchPutEdges (immutableRows rows)).map .immutable
  | .singleImmutable c => some (.singleImmutable (c.batchPutEdges (immutableRows rows)))

/-- `delete_edge`. A call that throws leaves the CSR as it is. -/
def deleteEdge (src offset ts : ℕ) : Csr D → Csr D
  | .mutable c => .mutable ((c.deleteEdge src offset ts).toOption.getD c)
  | .singleMutable c => .singleMutable ((c.deleteEdge src ts).toOption.getD c)
  | .immutable c => .immutable ((c.deleteEdge src offset).toOption.getD c)
  | .singleImmutable c => .singleImmutable ((c.deleteEdge src offset).toOption.getD c)

def revertDeleteEdge (src nbr offset ts : ℕ) : Csr D → Csr D
  | .mutable c => .mutable ((c.revertDeleteEdge src nbr offset ts).toOption.getD c)
  | .singleMutable c => .singleMutable ((c.revertDeleteEdge src nbr offset ts).toOption.getD c)
  | .immutable c => .immutable ((c.revertDeleteEdge src nbr offset).toOption.getD c)
  | .singleImmutable c => .singleImmutable ((c.revertDeleteEdge src nbr offset).toOption.getD c)

def batchDeleteOffsets (edges : List (ℕ × ℕ)) : Csr D → Option (Csr D)
  | .mutable c => some (.mutable (c.batchDeleteOffsets edges))
  | .singleMutable c => some (.singleMutable (c.batchDeleteOffsets edges))
  | .immutable c => (c.batchDeleteOffsets edges).map .immutable
  | .singleImmutable c => some (.singleImmutable (c.batchDeleteOffsets edges))

def batchDeletePairs (pairs : List (ℕ × ℕ)) : Csr D → Option (Csr D)
  | .mutable c => some (.mutable (c.batchDeletePairs pairs))
  | .singleMutable c => some (.singleMutable (c.batchDeletePairs pairs))
  | .immutable c => (c.batchDeletePairs pairs).map .immutable
  | .singleImmutable c => some (.singleImmutable (c.batchDeletePairs pairs))

def batchDeleteVertices (srcSet dstSet : Finset ℕ) : Csr D → Option (Csr D)
  | .mutable c => some (.mutable (c.batchDeleteVertices srcSet dstSet))
  | .singleMutable c => some (.singleMutable (c.batchDeleteVertices srcSet dstSet))
  | .immutable c => (c.batchDeleteVertices srcSet dstSet).map .immutable
  | .singleImmutable c => some (.singleImmutable (c.batchDeleteVertices srcSet dstSet))

/-- `compact`. It does nothing where there is one slot for each vertex. -/
def compact : Csr D → Option (Csr D)
  | .mutable c => some (.mutable c.compact.1)
  | .immutable c => c.compact.map .immutable
  | c => some c

def resize (vnum : ℕ) (memory : ℕ → ℕ × D) : Csr D → Csr D
  | .mutable c => .mutable (c.resize vnum)
  | .singleMutable c => .singleMutable (c.resize vnum memory)
  | .immutable c => .immutable (c.resize vnum)
  | .singleImmutable c => .singleImmutable (c.resize vnum fun v => (memory v).2)

def reopen : Csr D → Csr D
  | .mutable c => .mutable c.reopen.1
  | .immutable c => .immutable c.reopen
  | c => c

def step (c : Csr D) : CsrCall D → Option (Csr D)
  | .putEdge src dst data ts => c.putEdge src dst data ts
  | .batchPutEdges rows ts => c.batchPutEdges rows ts
  | .deleteEdge src offset ts => some (c.deleteEdge src offset ts)
  | .revertDeleteEdge src nbr offset ts => some (c.revertDeleteEdge src nbr offset ts)
  | .batchDeleteOffsets edges => c.batchDeleteOffsets edges
  | .batchDeletePairs pairs => c.batchDeletePairs pairs
  | .batchDeleteVertices srcSet dstSet => c.batchDeleteVertices srcSet dstSet
  | .compact => c.compact
  | .resize vnum memory => some (c.resize vnum memory)
  | .reopen => some c.reopen

/-- A CSR of any kind after `open` where there is no file. -/
def Initial (c : Csr D) : Prop :=
  c = .mutable .empty ∨ c = .singleMutable .empty ∨ c = .immutable .empty ∨
    c = .singleImmutable .empty

def Ordered : Csr D → Prop
  | .immutable c => ∃ lists, c.Laid lists
  | _ => True

end Csr

namespace MutableCsr

theorem view_batchDeleteVertices (c : MutableCsr D) (srcSet dstSet : Finset ℕ) (t : ℕ) :
    (c.batchDeleteVertices srcSet dstSet).view t =
      (c.view t).filter fun e => e.1 ∉ srcSet ∧ e.2.1 ∉ dstSet := by
  rw [view, view, filter_flatten]
  congr 1
  apply ext_getElem?
  intro v
  simp only [batchDeleteVertices, getElem?_mapIdx, getElem?_map]
  cases c.adj[v]? with
  | none => rfl
  | some l =>
    by_cases hsrc : v ∈ srcSet
    · simp [hsrc, filter_map]
    · simp [hsrc, filter_map, Bool.and_comm]

end MutableCsr

namespace ImmutableCsr

theorem Laid.view_eq {c : ImmutableCsr D} {lists : List (List (ImmutableNbr D))}
    (h : c.Laid lists) : c.view = (lists.mapIdx fun v l =>
      (l.filter ImmutableNbr.alive).map fun n => (v, n.neighbor, n.data)).flatten := by
  rw [view, flatMap_def, h.map_range fun v l =>
    (l.filter ImmutableNbr.alive).map fun n => (v, n.neighbor, n.data)]

end ImmutableCsr

namespace Csr

theorem view_batchDeleteVertices {c : Csr D} (h : c.Ordered) (srcSet dstSet : Finset ℕ) :
    ∃ c', c.batchDeleteVertices srcSet dstSet = some c' ∧ c'.Ordered ∧
      ∀ t < invalidTimestamp,
        c'.view t = (c.view t).filter fun e => e.1 ∉ srcSet ∧ e.2.1 ∉ dstSet := by
  cases c with
  | mutable c => exact ⟨_, rfl, trivial, fun t _ => c.view_batchDeleteVertices srcSet dstSet t⟩
  | singleMutable c =>
    exact ⟨_, rfl, trivial, fun t ht => c.view_batchDeleteVertices srcSet dstSet ht⟩
  | singleImmutable c =>
    exact ⟨_, rfl, trivial, fun t _ => c.view_batchDeleteVertices srcSet dstSet⟩
  | immutable c =>
    obtain ⟨lists, h⟩ := h
    obtain ⟨c', hrun, hlaid, -⟩ := h.batchDeleteVertices srcSet dstSet
    refine ⟨.immutable c', by simp [batchDeleteVertices, hrun], ⟨_, hlaid⟩, fun t _ => ?_⟩
    change c'.view = c.view.filter _
    rw [hlaid.view_eq, h.view_eq, filter_flatten]
    congr 1
    apply ext_getElem?
    intro v
    simp only [getElem?_mapIdx, getElem?_map]
    cases lists[v]? with
    | none => rfl
    | some l =>
      by_cases hsrc : v ∈ srcSet
      · simp [hsrc, ImmutableCsr.keptOf, filter_map]
      · simp [hsrc, ImmutableCsr.keptOf, filter_map,
          Bool.and_comm]

end Csr

end Neug.Storage
