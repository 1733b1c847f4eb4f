import Neug.Lib.Scatter

/-! `KcoreComputer`: the peeling of Batagelj and Zaversnik on the adjacency the computer has built.
Every access to an array is checked, `none` stands for one that is out of range. -/
namespace Neug.KCore

open Neug.Lib

/-- `adj_` without the weights, which the peeling does not read. -/
structure Graph where
  adj : List (List ℕ)
  inRange : ∀ row ∈ adj, ∀ v ∈ row, v < adj.length

/-- The simple neighbour list of `u`: first occurrences, without `u` itself. What `seen` holds is
what has been pushed. -/
def nbrOf (u : ℕ) (row : List ℕ) : List ℕ :=
  row.foldl (fun out v => if v = u then out else if v ∈ out then out else out ++ [v]) []

def Graph.nbr (G : Graph) : List (List ℕ) :=
  G.adj.mapIdx nbrOf

structure Arrays where
  deg : List ℕ
  bin : List ℕ
  vert : List ℕ
  pos : List ℕ

/-- `bin[deg[v]]++` for every `v`. -/
def countDegrees (deg bin : List ℕ) : Option (List ℕ) :=
  deg.foldlM (fun bin d => do
    let count ← bin[d]?
    setChecked bin d (count + 1)) bin

def classStarts (md : ℕ) (bin : List ℕ) : Option (List ℕ × ℕ) :=
  (List.range (md + 1)).foldlM (fun s d => do
    let num ← s.1[d]?
    let bin ← setChecked s.1 d s.2
    pure (bin, s.2 + num)) (bin, 0)

/-- Vertex `v` takes the next place of its class. -/
def placeVertex (s : Arrays) (v : ℕ) : Option Arrays := do
  let d ← s.deg[v]?
  let place ← s.bin[d]?
  let pos ← setChecked s.pos v place
  let vert ← setChecked s.vert place v
  let bin ← setChecked s.bin d (place + 1)
  pure { s with bin := bin, vert := vert, pos := pos }

/-- The starts of the classes again: `bin[d] = bin[d - 1]` from `md` down to `1`, then
`bin[0] = 0`. -/
def restoreStarts (md : ℕ) (bin : List ℕ) : Option (List ℕ) := do
  let bin ← (List.range md).reverse.foldlM (fun bin d => do
    let start ← bin[d]?
    setChecked bin (d + 1) start) bin
  setChecked bin 0 0

def bucketSort (deg : List ℕ) : Option Arrays := do
  let md := deg.foldl max 0
  let bin ← countDegrees deg (List.replicate (md + 2) 0)
  let (bin, _) ← classStarts md bin
  let s ← (List.range deg.length).foldlM placeVertex
    ⟨deg, bin, List.replicate deg.length 0, List.replicate deg.length 0⟩
  let bin ← restoreStarts md s.bin
  pure { s with bin := bin }

/-- `u` and `w` change places, unless they are one vertex. -/
def exchange (s : Arrays) (u pu w pw : ℕ) : Option Arrays :=
  if u ≠ w then do
    let pos ← setChecked s.pos u pw
    let vert ← setChecked s.vert pw u
    let pos ← setChecked pos w pu
    let vert ← setChecked vert pu w
    pure { s with vert := vert, pos := pos }
  else pure s

/-- The neighbour `u` of the vertex `v` that is peeled loses a degree, unless it has no more than
`v` already. -/
def lower (v : ℕ) (s : Arrays) (u : ℕ) : Option Arrays := do
  let du ← s.deg[u]?
  let dv ← s.deg[v]?
  if dv < du then
    let pu ← s.pos[u]?
    let pw ← s.bin[du]?
    let w ← s.vert[pw]?
    let s ← exchange s u pu w pw
    let start ← s.bin[du]?
    let bin ← setChecked s.bin du (start + 1)
    let deg ← setChecked s.deg u (du - 1)
    pure { s with bin := bin, deg := deg }
  else pure s

/-- One round of the peeling, at place `i`. -/
def peel (nbr : List (List ℕ)) (s : Arrays × List ℕ) (i : ℕ) : Option (Arrays × List ℕ) := do
  let v ← s.1.vert[i]?
  let d ← s.1.deg[v]?
  let coreness ← setChecked s.2 v d
  let row ← nbr[v]?
  let arrays ← row.foldlM (lower v) s.1
  pure (arrays, coreness)

def runKCore (G : Graph) (coreness : List ℕ) : Option (List ℕ) := do
  let nbr := G.nbr
  let s ← bucketSort (nbr.map List.length)
  let (_, coreness) ← (List.range G.adj.length).foldlM (peel nbr) (s, coreness)
  pure coreness

structure Result where
  numVertices : ℕ := 0
  maxCoreness : ℕ := 0
  numInMaxCore : ℕ := 0
  coreness : List ℕ := []

def compute (G : Graph) : Option Result :=
  if G.adj.length = 0 then some {}
  else do
    let coreness ← runKCore G (List.replicate G.adj.length 0)
    let mc := coreness.foldl max 0
    pure
      { numVertices := G.adj.length
        maxCoreness := mc
        numInMaxCore := coreness.count mc
        coreness := coreness }

end Neug.KCore
