import Mathlib

/-! `LouvainComputer` on an adjacency it has built: local moves, renumbering, coarsening and the
modularity it reports. Scalars carry no laws here, so `double` is one of them; the iteration order
of every `std::unordered_map` is left open. -/
namespace Neug.Louvain

/-- `adj_`: for every node its neighbours and the weights of the edges to them. -/
structure Graph (R : Type) where
  adj : List (List (ℕ × R))
  inRange : ∀ row ∈ adj, ∀ e ∈ row, e.1 < adj.length

/-- The order in which the two loops over an `unordered_map` meet its entries: the loop over
`comm_edge_weight` at a level, an iteration and a node, and the one over `coarse_adj_map[c]`. -/
structure MapOrder (R : Type) where
  edges : ℕ → ℕ → ℕ → List (ℕ × R) → List (ℕ × R)
  edges_perm : ∀ level iter u m, (edges level iter u m).Perm m
  coarse : ℕ → ℕ → List (ℕ × R) → List (ℕ × R)
  coarse_perm : ∀ level c m, (coarse level c m).Perm m

structure Computer (R : Type) where
  resolution : R
  maxIterations : ℤ
  maxLevels : ℤ
  order : MapOrder R

/-- The variables of `Compute` that change from level to level; `n` is the length of `adj`. -/
structure Level (R : Type) where
  adj : List (List (ℕ × R))
  nodeWeight : List R
  comm : List ℕ
  nodeToOrig : List (List ℕ)

structure Result (R : Type) where
  numVertices : ℕ := 0
  numCommunities : ℕ := 0
  levelsCompleted : ℕ := 0
  modularity : R
  community : List ℕ := []

variable {R : Type} [Zero R] [Add R] [Sub R] [Mul R] [Div R] [OfNat R 2]
  [LT R] [DecidableLT R] [LE R] [DecidableLE R]

/-- `m[c] += w` on an `unordered_map`, its entries listed in the order of their insertion. -/
def bump (c : ℕ) (w : R) : List (ℕ × R) → List (ℕ × R)
  | [] => [(c, 0 + w)]
  | e :: m => if e.1 = c then (c, e.2 + w) :: m else e :: bump c w m

def rowWeight (row : List (ℕ × R)) : R :=
  row.foldl (fun w e => w + e.2) 0

def accumulateByComm (n : ℕ) (comm : List ℕ) (nodeWeight : List R) : List R :=
  (comm.zip nodeWeight).foldl (fun out e => out.modify e.1 (· + e.2)) (List.replicate n 0)

/-- `comm_edge_weight`: the weight from a node to each neighbouring community. -/
def commEdgeWeight (comm : List ℕ) (row : List (ℕ × R)) : List (ℕ × R) :=
  row.foldl (fun m e => bump (comm.getD e.1 0) e.2 m) []

/-- One round of the loop that looks for a better community than the best one so far. -/
def consider (resolution kiOver2m : R) (commTotal : List R) (old : ℕ) (best : R × ℕ)
    (e : ℕ × R) : R × ℕ :=
  if e.1 = old then best
  else
    let delta := e.2 - resolution * kiOver2m * commTotal.getD e.1 0
    if best.1 < delta then (delta, e.1) else best

/-- The body of the loop over the nodes of `LocalMove`: the new community of one node. The entries
of `comm_edge_weight` are met in the order `order`. -/
def bestComm (resolution totalWeight : R) (order : List (ℕ × R) → List (ℕ × R))
    (comm : List ℕ) (commTotal : List R) (row : List (ℕ × R)) (ki : R) (old : ℕ) : ℕ :=
  let edges := commEdgeWeight comm row
  let kiOver2m := ki / (2 * totalWeight)
  let stay := (edges.lookup old).getD 0 - resolution * kiOver2m * (commTotal.getD old 0 - ki)
  ((order edges).foldl (consider resolution kiOver2m commTotal old) (stay, old)).2

namespace Computer

def sweep (C : Computer R) (totalWeight : R) (level iter : ℕ) (adj : List (List (ℕ × R)))
    (nodeWeight : List R) (comm : List ℕ) : List ℕ :=
  let commTotal := accumulateByComm adj.length comm nodeWeight
  (List.range adj.length).map fun u =>
    bestComm C.resolution totalWeight (C.order.edges level iter u) comm commTotal
      (adj.getD u []) (nodeWeight.getD u 0) (comm.getD u 0)

/-- `moved_count` of one iteration. -/
def movedCount (comm newComm : List ℕ) : ℕ :=
  (comm.zip newComm).countP fun e => e.2 ≠ e.1

/-- The iterations of `LocalMove` from iteration `iter` on, at most `fuel` of them. -/
def moveLoop (C : Computer R) (totalWeight : R) (level : ℕ) (adj : List (List (ℕ × R)))
    (nodeWeight : List R) : ℕ → ℕ → List ℕ → Bool → List ℕ × Bool
  | 0, _, comm, anyMoved => (comm, anyMoved)
  | fuel + 1, iter, comm, anyMoved =>
    let newComm := C.sweep totalWeight level iter adj nodeWeight comm
    if movedCount comm newComm = 0 then (newComm, anyMoved)
    else C.moveLoop totalWeight level adj nodeWeight fuel (iter + 1) newComm true

def localMove (C : Computer R) (totalWeight : R) (level : ℕ) (s : Level R) : List ℕ × Bool :=
  C.moveLoop totalWeight level s.adj s.nodeWeight C.maxIterations.toNat 0 s.comm false

end Computer

/-- The renumbering loop. `comm_remap` is the list of its keys in the order of the ids they were
given, so that `next_id` is its length. -/
def renumberFrom : List ℕ → List ℕ → List ℕ × ℕ
  | remap, [] => ([], remap.length)
  | remap, c :: comm =>
    let remap := if c ∈ remap then remap else remap ++ [c]
    let rest := renumberFrom remap comm
    (remap.idxOf c :: rest.1, rest.2)

def renumber (comm : List ℕ) : List ℕ × ℕ :=
  renumberFrom [] comm

/-- One adjacency entry of a node in community `cu` enters `coarse_adj_map`. -/
def coarseEdge (comm : List ℕ) (cu : ℕ) (maps : List (List (ℕ × R))) (e : ℕ × R) :
    List (List (ℕ × R)) :=
  let cv := comm.getD e.1 0
  if cu ≤ cv then
    let maps := maps.modify cu (bump cv e.2)
    if cu ≠ cv then maps.modify cv (bump cu e.2) else maps
  else maps

def coarseAdjMap (num : ℕ) (comm : List ℕ) (adj : List (List (ℕ × R))) : List (List (ℕ × R)) :=
  (comm.zip adj).foldl (fun maps e => e.2.foldl (coarseEdge comm e.1) maps)
    (List.replicate num [])

def newNodeToOrig (num : ℕ) (comm : List ℕ) (nodeToOrig : List (List ℕ)) : List (List ℕ) :=
  (comm.zip nodeToOrig).foldl (fun out e => out.modify e.1 (· ++ e.2)) (List.replicate num [])

/-- Phase 2 of a level: the communities `comm` become the `num` nodes of the next level. -/
def coarsen (order : ℕ → List (ℕ × R) → List (ℕ × R)) (num : ℕ) (s : Level R) : Level R where
  adj := (coarseAdjMap num s.comm s.adj).mapIdx order
  nodeWeight := accumulateByComm num s.comm s.nodeWeight
  comm := List.range num
  nodeToOrig := newNodeToOrig num s.comm s.nodeToOrig

namespace Computer

/-- The loop over the levels from level `level` on, at most `fuel` of them. Next to the variables
it ends with and `levels_completed` it returns the states in which a level was started. -/
def levelLoop (C : Computer R) (totalWeight : R) :
    ℕ → ℕ → Level R → List (Level R) × Level R × ℕ
  | 0, level, s => ([], s, level)
  | fuel + 1, level, s =>
    let (comm, improved) := C.localMove totalWeight level s
    if !improved && 0 < level then ([s], { s with comm := comm }, level)
    else
      let (comm, num) := renumber comm
      if num = s.adj.length then ([s], { s with comm := comm }, level)
      else
        let rest := C.levelLoop totalWeight fuel (level + 1)
          (coarsen (C.order.coarse level) num { s with comm := comm })
        (s :: rest.1, rest.2)

end Computer

def Level.initial (adj : List (List (ℕ × R))) : Level R where
  adj := adj
  nodeWeight := adj.map rowWeight
  comm := List.range adj.length
  nodeToOrig := (List.range adj.length).map fun i => [i]

def totalWeight (adj : List (List (ℕ × R))) : R :=
  (adj.foldl (fun w row => w + rowWeight row) 0) / 2

/-- `result.community`: the final communities written back to the original vertices. -/
def mapBack (numVertices : ℕ) (s : Level R) : List ℕ :=
  (s.comm.zip s.nodeToOrig).foldl
    (fun community e => e.2.foldl (fun community orig => community.set orig e.1) community)
    (List.replicate numVertices 0)

def internalWeight (adj : List (List (ℕ × R))) (comm : List ℕ) : R :=
  (comm.zip adj).foldl
    (fun q e => e.2.foldl (fun q f => if e.1 = comm.getD f.1 0 then q + f.2 else q) q) 0

def penalty (totalWeight : R) (commTotal : List R) : R :=
  commTotal.foldl (fun p st => p + st / (2 * totalWeight) * (st / (2 * totalWeight))) 0

/-- `ComputeModularity` on the adjacency `adj`. -/
def computeModularity (resolution totalWeight : R) (adj : List (List (ℕ × R)))
    (comm : List ℕ) : R :=
  if totalWeight ≤ 0 then 0
  else
    let nc := comm.foldl max 0 + 1
    let commTotal := accumulateByComm nc comm (adj.map rowWeight)
    internalWeight adj comm / (2 * totalWeight) - resolution * penalty totalWeight commTotal

namespace Computer

/-- The levels of one call: the states the levels start in, the last state, `level`. -/
def run (C : Computer R) (G : Graph R) : List (Level R) × Level R × ℕ :=
  C.levelLoop (totalWeight G.adj) C.maxLevels.toNat 0 (Level.initial G.adj)

def compute (C : Computer R) (G : Graph R) : Result R :=
  if G.adj.length = 0 then { modularity := 0 }
  else
    let (_, s, level) := C.run G
    let community := mapBack G.adj.length s
    { numVertices := G.adj.length
      numCommunities := community.dedup.length
      levelsCompleted := level
      modularity := computeModularity C.resolution (totalWeight G.adj) G.adj community
      community := community }

end Computer

end Neug.Louvain
