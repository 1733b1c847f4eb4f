import Neug.Execution.PathExpand

/-! `edge_expand_p` with the other path options. Simple paths and trails come from depth-first
searches that keep the path as a vector of vertices and differ in the hops that they skip, shortest
paths from a breadth-first search. -/
namespace Neug.Execution
open Neug.Lib

variable {E : Type}

/-- `static_cast<size_t>` of a bound. -/
def toSize (bound : ℤ) : ℕ := (bound % 2 ^ 64).toNat

namespace ReadGraph

variable (g : ReadGraph E)

/-- The hops of the depth-first searches. The loop over the incoming edges stands inside the branch
for the outgoing ones. -/
def dfsHops (labels : List LabelTriplet) (dir : Direction) (u : VertexRecord) : List (Hop E) :=
  if dir = .out ∨ dir = .both then
    g.outHops labels u ++ if dir = .inn ∨ dir = .both then g.inHops labels u else []
  else []

def dfsMoves (labels : List LabelTriplet) (dir : Direction) : Moves VertexRecord (Hop E) :=
  ⟨g.dfsHops labels dir, Hop.vertex⟩

end ReadGraph

def crossingsOf (start : VertexRecord) : List (Hop E) → List Crossing
  | [] => []
  | h :: w => ⟨Path.endNode ⟨start, w⟩, h.vertex, h.edgeLabel⟩ :: crossingsOf start w

/-- The search for simple paths skips a vertex that `std::find` finds in the path. -/
def newVertex (start : VertexRecord) (w : List (Hop E)) (h : Hop E) : Bool :=
  h.vertex ∉ start :: w.map Hop.vertex

/-- The search for trails compares the two vertices and the label of the edge with every two
consecutive vertices of the path. -/
def newCrossing (start : VertexRecord) (w : List (Hop E)) (h : Hop E) : Bool :=
  ⟨Path.endNode ⟨start, w⟩, h.vertex, h.edgeLabel⟩ ∉ crossingsOf start w

/-- The search from every row. It compares the number of vertices with the bounds. A path without a repeated vertex or crossing has at most one hop for
every crossing of the graph, which bounds the depth of the recursion. -/
def dfsExpand (keeps : VertexRecord → List (Hop E) → Hop E → Bool) (g : ReadGraph E)
    (p : PathExpandParams) (col : VertexColumn) : List (Path E × ℕ) :=
  rowPaths col fun v => ((g.dfsMoves p.labels p.dir).dfs (keeps v)
    (fun w => toSize p.hopLower ≤ w.length + 1) (fun w => w.length + 1 = toSize p.hopUpper) v
    ((g.crossings p.labels).length + 1) []).map (Path.mk v)

def pathExpandPSimple (g : ReadGraph E) (p : PathExpandParams) (col : VertexColumn) :
    List (Path E × ℕ) := dfsExpand newVertex g p col

def pathExpandPTrail (g : ReadGraph E) (p : PathExpandParams) (col : VertexColumn) :
    List (Path E × ℕ) := dfsExpand newCrossing g p col

/-- The loop of the breadth-first search, with the depth it ends at. The rounds that are left bound
`hop_upper - depth`. -/
def bfsLoop (g : ReadGraph E) (p : PathExpandParams) (root : VertexRecord) :
    ℕ → ℕ → Level VertexRecord (Hop E) → ℕ × Level VertexRecord (Hop E)
  | 0, depth, l => (depth, l)
  | rounds + 1, depth, l =>
    if depth + 1 < p.hopUpper ∧ l.next ≠ [] then
      bfsLoop g p root rounds (depth + 1)
        ((g.moves p.labels p.dir).scan (· = root) l.next ⟨l.tree, []⟩)
    else (depth, l)

/-- The search from a root. The paths are read from the entries of `visited`, in the order of
insertion; the source does not fix the order of this map. -/
def bfsPaths (g : ReadGraph E) (p : PathExpandParams) (root : VertexRecord) : List (Path E) :=
  let (depth, l) := bfsLoop g p root p.hopUpper.toNat 0 ⟨[], [root]⟩
  if p.hopLower ≤ depth then
    l.tree.filterMap fun e => ((g.moves p.labels p.dir).trace root l.tree (l.tree.length + 1)
      e.2.vertex).map (Path.mk root)
  else []

def pathExpandPAnyShortest (g : ReadGraph E) (p : PathExpandParams) (col : VertexColumn) :
    List (Path E × ℕ) := rowPaths col (bfsPaths g p)

inductive PathOpt where
  | arbitrary | anyShortest | allShortest | trail | simple | anyWeightedShortest
  deriving DecidableEq, Repr

/-- `edge_expand_p`. No result stands for the options that are not supported. -/
def edgeExpandP (g : ReadGraph E) (p : PathExpandParams) (col : VertexColumn) :
    PathOpt → Option (List (Path E × ℕ))
  | .arbitrary => some (pathExpandPArbitrary g p col)
  | .anyShortest => some (pathExpandPAnyShortest g p col)
  | .trail => some (pathExpandPTrail g p col)
  | .simple => some (pathExpandPSimple g p col)
  | .allShortest | .anyWeightedShortest => none

theorem exists_edgeExpandP {g : ReadGraph E} {p : PathExpandParams} {col : VertexColumn}
    {opt : PathOpt} {l : List (Path E × ℕ)} {P : List (Path E × ℕ) → Prop}
    (h : edgeExpandP g p col opt = some l) :
    (∃ r, edgeExpandP g p col opt = some r ∧ P r) ↔ P l := by
  rw [h]
  simp

end Neug.Execution
