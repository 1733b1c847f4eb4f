import Neug.Execution.ReadGraph

/-! `PathExpand` with arbitrary paths: the level-by-level loops that expand to end vertices and to
paths, and the loop for a single triplet between vertices of one label. -/
namespace Neug.Execution

variable {E : Type}

/-- The members of `PathExpandParams` that the expansions read. The binder collects the triplets
from a set of tables. -/
structure PathExpandParams where
  labels : List LabelTriplet
  dir : Direction
  hopLower : ℤ
  hopUpper : ℤ
  nodup : labels.Nodup

/-- `SLVertexColumn`, `MSVertexColumn` and `MLVertexColumn` without null rows. -/
inductive VertexColumn where
  | single (label : ℕ) (vids : List ℕ)
  | multiSegment (segments : List (ℕ × List ℕ))
  | multiple (vertices : List VertexRecord)

/-- The vertices in the order of `foreach_vertex`. -/
def VertexColumn.vertices : VertexColumn → List VertexRecord
  | .single label vids => vids.map fun v => ⟨label, v⟩
  | .multiSegment segments => segments.flatMap fun s => s.2.map fun v => ⟨s.1, v⟩
  | .multiple vertices => vertices

def VertexColumn.rows (col : VertexColumn) : List (VertexRecord × ℕ) := col.vertices.zipIdx

/-- The paths that are found from the vertices of a column, with the rows they start from. -/
def rowPaths (col : VertexColumn) (f : VertexRecord → List (Path E)) : List (Path E × ℕ) :=
  col.rows.flatMap fun x => (f x.1).map fun path => (path, x.2)

/-- `MLVertexColumnBuilderOpt`, and the offsets that are pushed with the vertices. -/
structure VertexColumnBuilder where
  vertices : List VertexRecord
  labelsBitmap : List Bool
  shuffleOffset : List ℕ
  deriving DecidableEq, Repr

namespace VertexColumnBuilder

def create (labels : List ℕ) : VertexColumnBuilder :=
  ⟨[], List.replicate (labels.foldr max 0 + 1) false, []⟩

/-- `push_back_vertex`. No result stands for a label outside the bitmap. -/
def pushBack (b : VertexColumnBuilder) (v : VertexRecord) (index : ℕ) :
    Option VertexColumnBuilder :=
  if v.label < b.labelsBitmap.length then
    some ⟨b.vertices ++ [v], b.labelsBitmap.set v.label true, b.shuffleOffset ++ [index]⟩
  else none

def pushAll : List (VertexRecord × ℕ) → VertexColumnBuilder → Option VertexColumnBuilder
  | [], b => some b
  | x :: rest, b => (b.pushBack x.1 x.2).bind (pushAll rest)

def rows (b : VertexColumnBuilder) : List (VertexRecord × ℕ) := b.vertices.zip b.shuffleOffset

end VertexColumnBuilder

/-- The labels the builder of `edge_expand_v` is made for. -/
def builderLabels (p : PathExpandParams) : List ℕ :=
  match p.dir with
  | .out => p.labels.flatMap fun τ =>
      if p.hopLower = 0 then [τ.dstLabel, τ.srcLabel] else [τ.dstLabel]
  | .inn => p.labels.flatMap fun τ =>
      if p.hopLower = 0 then [τ.srcLabel, τ.dstLabel] else [τ.srcLabel]
  | .both => p.labels.flatMap fun τ => [τ.dstLabel, τ.srcLabel]

def expandVertices (g : ReadGraph E) (p : PathExpandParams) (input : List (VertexRecord × ℕ)) :
    List (VertexRecord × ℕ) :=
  input.flatMap fun x => (g.hopsFrom p.labels p.dir x.1).map fun h => (h.vertex, x.2)

/-- The loop of `edge_expand_v`. The rounds that are left bound `hop_upper - depth`. -/
def expandLoop (g : ReadGraph E) (p : PathExpandParams) :
    ℕ → ℕ → List (VertexRecord × ℕ) → VertexColumnBuilder → Option VertexColumnBuilder
  | 0, _, _, b => some b
  | rounds + 1, depth, output, b =>
    if depth < p.hopUpper ∧ output ≠ [] then
      (if p.hopLower ≤ depth then b.pushAll output else some b).bind fun b =>
        if p.hopUpper ≤ depth + 1 then some b
        else expandLoop g p rounds (depth + 1) (expandVertices g p output) b
    else some b

/-- `edge_expand_v` without the branch for a single label. -/
def expandGeneral (g : ReadGraph E) (p : PathExpandParams) (col : VertexColumn) :
    Option VertexColumnBuilder :=
  expandLoop g p p.hopUpper.toNat 0 col.rows (.create (builderLabels p))

/-- `get_edges` of the views that `path_expand_vertex_without_predicate_impl` walks: the incoming
one comes first where both are used. -/
def singleNext (g : ReadGraph E) (τ : LabelTriplet) (dir : Direction) (v : ℕ) : List ℕ :=
  match dir with
  | .out => (g.outgoing τ v).map g.dst
  | .inn => (g.incoming τ v).map g.src
  | .both => (g.incoming τ v).map g.src ++ (g.outgoing τ v).map g.dst

def expandSingle (g : ReadGraph E) (τ : LabelTriplet) (dir : Direction) (input : List (ℕ × ℕ)) :
    List (ℕ × ℕ) :=
  input.flatMap fun x => (singleNext g τ dir x.1).map fun y => (y, x.2)

/-- The loop of `iterative_expand_vertex_on_graph_view` and its dual. The rounds that are left
bound the larger of `upper` and `lower`, less the depth. -/
def singleLoop (g : ReadGraph E) (τ : LabelTriplet) (dir : Direction) (lower upper : ℤ) :
    ℕ → ℕ → List (ℕ × ℕ) → List (ℕ × ℕ)
  | 0, _, _ => []
  | rounds + 1, depth, output =>
    if output = [] then []
    else if lower ≤ depth ∧ depth < upper then
      if depth = upper - 1 then output
      else output ++ singleLoop g τ dir lower upper rounds (depth + 1) (expandSingle g τ dir output)
    else if depth < lower then
      singleLoop g τ dir lower upper rounds (depth + 1) (expandSingle g τ dir output)
    else []

/-- `path_expand_vertex_without_predicate_impl`: end vertices and their rows. No result stands for
the check that fails. -/
def pathExpandVertexWithoutPredicate (g : ReadGraph E) (τ : LabelTriplet) (vids : List ℕ)
    (dir : Direction) (lower upper : ℤ) : Option (List (ℕ × ℕ)) :=
  if upper = lower then some []
  else if upper = 1 then
    if lower = 0 then some vids.zipIdx else none
  else some (singleLoop g τ dir lower upper (max lower upper + 1).toNat 0 vids.zipIdx)

/-- The triplet of the single-label branch, where `edge_expand_v` takes it, with the vertices of
the column. -/
def singleLabel (p : PathExpandParams) : VertexColumn → Option (LabelTriplet × List ℕ)
  | .single label vids =>
    match p.labels with
    | [τ] => if τ.srcLabel = τ.dstLabel ∧ label = τ.srcLabel then some (τ, vids) else none
    | _ => none
  | _ => none

def expandSingleLabel (g : ReadGraph E) (p : PathExpandParams) (τ : LabelTriplet)
    (vids : List ℕ) : Option (List (VertexRecord × ℕ)) :=
  (pathExpandVertexWithoutPredicate g τ vids p.dir p.hopLower p.hopUpper).map fun l =>
    l.map fun x => (⟨τ.srcLabel, x.1⟩, x.2)

/-- `edge_expand_v`: the rows of the new column, each with the input row it comes from. -/
def edgeExpandV (g : ReadGraph E) (p : PathExpandParams) (col : VertexColumn) :
    Option (List (VertexRecord × ℕ)) :=
  match singleLabel p col with
  | some (τ, vids) => expandSingleLabel g p τ vids
  | none => (expandGeneral g p col).map VertexColumnBuilder.rows

def expandPaths (g : ReadGraph E) (p : PathExpandParams) (input : List (Path E × ℕ)) :
    List (Path E × ℕ) :=
  input.flatMap fun x =>
    (g.hopsFrom p.labels p.dir x.1.endNode).map fun h => (x.1.expand h, x.2)

/-- The loop of `path_expand_p_arbitrary`. -/
def arbitraryLoop (g : ReadGraph E) (p : PathExpandParams) :
    ℕ → ℕ → List (Path E × ℕ) → List (Path E × ℕ)
  | 0, _, _ => []
  | rounds + 1, depth, input =>
    if depth < p.hopUpper then
      let output := if depth + 1 < p.hopUpper then expandPaths g p input else []
      let pushed := if p.hopLower ≤ depth then input else []
      if p.hopUpper ≤ depth + 1 then pushed
      else pushed ++ arbitraryLoop g p rounds (depth + 1) output
    else []

/-- `path_expand_p_arbitrary`: the paths and the rows they start from. -/
def pathExpandPArbitrary (g : ReadGraph E) (p : PathExpandParams) (col : VertexColumn) :
    List (Path E × ℕ) :=
  arbitraryLoop g p p.hopUpper.toNat 0 (col.rows.map fun x => (⟨x.1, []⟩, x.2))

end Neug.Execution
