import Neug.Execution.ReadGraph

/-! `single_source_single_dest_shortest_path_impl`: a search from both ends that expands the smaller
of the two queues. -/
namespace Neug.Execution
open Neug.Lib

variable {E : Type}

/-- A result of `int` arithmetic, where it fits. -/
def checkedInt (n : ℤ) : Option ℤ := if -2 ^ 31 ≤ n ∧ n < 2 ^ 31 then some n else none

/-- A size that is stored in an `int`. -/
def sizeToInt (n : ℕ) : ℤ := (n : ℤ).bmod (2 ^ 32)

/-- The arrays `dis` and `pre`, and the queue `tmp`. A distance is counted up from 1 on the side of
the source and down from -1 on the side of the destination; 0 stands for a vertex that was not
reached, and no predecessor for -1. -/
structure PairState where
  dis : VertexRecord → ℤ
  pre : VertexRecord → Option VertexRecord
  tmp : List VertexRecord

def PairState.start (src dst : VertexRecord) : PairState :=
  ⟨Function.update (Function.update (fun _ => 0) src 1) dst (-1), fun _ => none, []⟩

def PairState.reach (st : PairState) (x y : VertexRecord) (value : ℤ) : PairState :=
  ⟨Function.update st.dis y value, Function.update st.pre y (some x), st.tmp ++ [y]⟩

section

variable (st : PairState) (x : VertexRecord) {y z : VertexRecord} (value : ℤ)

@[simp] theorem PairState.dis_reach_self : (st.reach x y value).dis y = value :=
  Function.update_self ..

@[simp] theorem PairState.dis_reach_of_ne (h : z ≠ y) : (st.reach x y value).dis z = st.dis z :=
  Function.update_of_ne h ..

@[simp] theorem PairState.pre_reach_self : (st.reach x y value).pre y = some x :=
  Function.update_self ..

@[simp] theorem PairState.pre_reach_of_ne (h : z ≠ y) : (st.reach x y value).pre z = st.pre z :=
  Function.update_of_ne h ..

@[simp] theorem PairState.tmp_reach : (st.reach x y value).tmp = st.tmp ++ [y] := rfl

end

/-- How the loop over a queue ends: it is empty, the distance exceeds the upper bound, or an edge
meets the other side. -/
inductive Drained where
  | done (st : PairState)
  | tooFar
  | met (x y : VertexRecord) (st : PairState)

section

variable (m : Moves VertexRecord (Hop E))

/-- The loop over the edges of `x`, with the vertex of the other side where it ends. The sign is that
of the distances on this side. -/
def scanEdges (sign : ℤ) (x : VertexRecord) :
    List (Hop E) → PairState → PairState × Option VertexRecord
  | [], st => (st, none)
  | h :: hops, st =>
    if st.dis (m.target h) = 0 then
      scanEdges sign x hops (st.reach x (m.target h) (st.dis x + sign))
    else if sign * st.dis (m.target h) < 0 then (st, some (m.target h))
    else scanEdges sign x hops st

def drain (sign : ℤ) (past : ℤ → Bool) : List VertexRecord → PairState → Drained
  | [], st => .done st
  | x :: q, st =>
    if past (st.dis x) then .tooFar
    else match scanEdges m sign x (m.next x) st with
      | (st, none) => drain sign past q st
      | (st, some y) => .met x y st

/-- The outer loop. It ends without a meeting or with an edge from the side of the source to that of
the destination. No result stands for a bound that overflows. -/
def meet (upper : ℤ) : ℕ → PairState → List VertexRecord → List VertexRecord →
    Option (Option (VertexRecord × VertexRecord × PairState))
  | 0, _, _, _ => none
  | rounds + 1, st, q1, q2 =>
    if q1.length ≤ q2.length then
      if q1 = [] then some none
      else (checkedInt (upper + 1)).bind fun limit =>
        match drain m 1 (fun d => limit ≤ d) q1 { st with tmp := [] } with
        | .done st => meet upper rounds st st.tmp q2
        | .tooFar => some none
        | .met x y st => some (some (x, y, st))
    else if q2 = [] then some none
    else ((checkedInt (-upper)).bind fun n => checkedInt (n - 1)).bind fun limit =>
      match drain m (-1) (fun d => d ≤ limit) q2 { st with tmp := [] } with
      | .done st => meet upper rounds st q1 st.tmp
      | .tooFar => some none
      | .met x y st => some (some (y, x, st))

/-- The vertices from `x` to the end of its side, along `pre`. -/
def ancestors (pre : VertexRecord → Option VertexRecord) : ℕ → VertexRecord →
    Option (List VertexRecord)
  | 0, _ => none
  | fuel + 1, x =>
    match pre x with
    | none => some [x]
    | some u => (ancestors pre fuel u).map (x :: ·)

/-- `get_edge_datas`: the first outgoing edge between two consecutive vertices, or else the first
incoming one. -/
def getEdgeDatas : List VertexRecord → List (Hop E)
  | u :: v :: path => ((m.next u).find? fun h => m.target h = v).toList ++ getEdgeDatas (v :: path)
  | _ => []

end

structure PairResult (E : Type) where
  returned : Bool
  path : List VertexRecord
  edgeDatas : List (Hop E)

def PairResult.ofPath (m : Moves VertexRecord (Hop E)) (lower upper : ℤ)
    (path : List VertexRecord) : PairResult E :=
  let len := sizeToInt (path.length - 1)
  ⟨lower ≤ len ∧ len < upper, path, getEdgeDatas m path⟩

def pairRounds (g : ReadGraph E) (τ : LabelTriplet) : ℕ := (g.crossings [τ]).length + 2

def pairShortestPath (g : ReadGraph E) (τ : LabelTriplet) (lower upper : ℤ)
    (src dst : VertexRecord) : Option (PairResult E) :=
  (meet (g.moves [τ] .both) upper (pairRounds g τ) (.start src dst) [src] [dst]).bind fun
  | none => some ⟨false, [], []⟩
  | some (x, y, st) =>
    (ancestors st.pre (pairRounds g τ) x).bind fun front =>
      (ancestors st.pre (pairRounds g τ) y).map fun back =>
        .ofPath (g.moves [τ] .both) lower upper (front.reverse ++ back)

end Neug.Execution
