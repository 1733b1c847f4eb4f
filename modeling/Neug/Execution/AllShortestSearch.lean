import Neug.Execution.ReadGraph
import Neug.Lib.Loop

/-! `all_shortest_path_with_given_source_and_dest_impl`: a search from both ends with distances of
type `int8_t`, a second one from the vertices where the two meet, and a depth-first enumeration along
the marked vertices. -/
namespace Neug.Execution
open Neug.Lib

variable {E : Type}

/-- A number that is stored in an `int8_t`. -/
def toInt8 (n : ℤ) : ℤ := n.bmod 256

/-- A distance array with -1 for the vertices that were not reached, and the vectors that a round
fills. -/
structure Front where
  dist : VertexRecord → ℤ
  tmp : List VertexRecord
  vec : List VertexRecord

/-- The test of a neighbour. A vertex that the other side has reached is a meeting point. -/
def Front.visit (far : VertexRecord → ℤ) (value : ℤ) (f : Front) (nbr : VertexRecord) : Front :=
  if f.dist nbr = -1 then
    ⟨Function.update f.dist nbr value, f.tmp ++ [nbr],
      if far nbr ≠ -1 then f.vec ++ [nbr] else f.vec⟩
  else f

/-- What the search keeps for each end: `dist_from_src`, `q1` and `src_dep`, and likewise for the
destination. -/
structure Side where
  dist : VertexRecord → ℤ
  queue : List VertexRecord
  dep : ℤ

def Side.start (v : VertexRecord) : Side := ⟨Function.update (fun _ => -1) v 0, [v], 0⟩

/-- The state of the first search, with the meeting points `vec`. -/
structure Sides where
  src : Side
  dst : Side
  vec : List VertexRecord

/-- The state of the second search: its queue, `visited` and `dist_from_src`. -/
structure Marked where
  queue : List VertexRecord
  visited : VertexRecord → Bool
  dist : VertexRecord → ℤ

def Marked.push (st : Marked) (nbr : VertexRecord) : Marked :=
  ⟨st.queue ++ [nbr], Function.update st.visited nbr true, st.dist⟩

/-- The test of a neighbour of `v`: one step nearer to the source, or one step nearer to the
destination. In the second case its distance from the source is written. -/
def Marked.mark (far : VertexRecord → ℤ) (v : VertexRecord) (st : Marked) (nbr : VertexRecord) :
    Marked :=
  if st.visited nbr then st
  else
    let back := if st.dist nbr ≠ -1 ∧ st.dist nbr + 1 = st.dist v then st.push nbr else st
    if far nbr ≠ -1 ∧ far nbr + 1 = far v then
      { back.push nbr with dist := Function.update st.dist nbr (toInt8 (st.dist v + 1)) }
    else back

section

variable (m : Moves VertexRecord (Hop E))

def Side.scan (a : Side) (far : VertexRecord → ℤ) : Front :=
  a.queue.foldl (fun f v => (m.next v).foldl (fun f h => f.visit far (toInt8 (a.dep + 1)) (m.target h)) f)
    ⟨a.dist, [], []⟩

def Side.expand (a : Side) (far : VertexRecord → ℤ) : Side :=
  ⟨(a.scan m far).dist, (a.scan m far).tmp, toInt8 (a.dep + 1)⟩

/-- One round of the first search, on the side with the smaller queue. There is none after a meeting,
at the upper bound, or with an empty queue. -/
def round (upper : ℤ) (st : Sides) : Option Sides :=
  if upper ≤ st.src.dep ∨ upper ≤ st.dst.dep ∨ st.vec ≠ [] then none
  else if st.src.queue.length ≤ st.dst.queue.length then
    if st.src.queue = [] then none
    else some ⟨st.src.expand m st.dst.dist, st.dst, (st.src.scan m st.dst.dist).vec⟩
  else if st.dst.queue = [] then none
  else some ⟨st.src, st.dst.expand m st.src.dist, (st.dst.scan m st.src.dist).vec⟩

def markNext (far : VertexRecord → ℤ) (st : Marked) : Option Marked :=
  match st.queue with
  | [] => none
  | v :: q => some ((m.next v).foldl (fun st h => st.mark far v (m.target h)) { st with queue := q })

/-- The hops that the enumeration takes lead to a marked vertex that is one step farther. -/
def onward (st : Marked) (src : VertexRecord) (w : List (Hop E)) (h : Hop E) : Bool :=
  st.visited (m.target h) ∧ st.dist (m.target h) = st.dist (m.last src w) + 1

/-- `dfs`. Along a path the distances grow in an `int8_t`, which bounds its length. -/
def enumerate (st : Marked) (src dst : VertexRecord) : List (List (Hop E)) :=
  m.dfs (onward m st src) (fun w => m.last src w = dst) (fun w => m.last src w = dst) src 256 []

end

/-- A round reaches a new vertex, empties a queue, or writes the value -1, which happens in one round
out of 256. -/
def allRounds (g : ReadGraph E) (τ : LabelTriplet) : ℕ := 4 * (g.crossings [τ]).length + 5

/-- `all_shortest_path_with_given_source_and_dest_impl`. The lower bound is not read. -/
def allShortestPaths (g : ReadGraph E) (τ : LabelTriplet) (upper : ℤ) (src dst : VertexRecord) :
    Option (List (Path E)) :=
  let m := g.moves [τ] .both
  (runLoop (round m upper) (allRounds g τ) ⟨.start src, .start dst, []⟩).bind fun st =>
    if st.vec = [] then some []
    else if upper ≤ st.src.dep + st.dst.dep then some []
    else (runLoop (markNext m st.dst.dist) (st.vec.length + 2 * (g.crossings [τ]).length + 1)
        ⟨st.vec, (· ∈ st.vec), st.src.dist⟩).map fun marked =>
      (enumerate m marked src dst).map (Path.mk src)

end Neug.Execution
