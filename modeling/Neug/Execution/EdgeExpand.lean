import Neug.Execution.Columns
import Neug.Lib.OuterRows

/-! `EdgeExpand`: from a column of vertices to their neighbours, and the counts of these. -/
namespace Neug.Execution
open Neug.Lib List

variable {E : Type}

/-- `StorageReadInterface` with its schema. An adjacency list may hold entries that are not visible
at the timestamp of the reader. -/
structure StoredGraph (E : Type) extends ReadGraph E where
  exist : LabelTriplet → Bool
  labelNum : ℕ
  outEntries : LabelTriplet → ℕ → ℕ
  inEntries : LabelTriplet → ℕ → ℕ
  labelNum_le : labelNum ≤ nullLabel
  exist_lt : ∀ τ, exist τ = true → τ.srcLabel < labelNum ∧ τ.dstLabel < labelNum
  outgoing_le : ∀ τ v, (outgoing τ v).length ≤ outEntries τ v
  incoming_le : ∀ τ v, (incoming τ v).length ≤ inEntries τ v

/-- The members of `EdgeExpandParams` that the expansions read, and the predicate, `none` for
`DummyPred`. The predicate gets the vertex, the neighbour and the edge. -/
structure ExpandParams (E : Type) where
  labels : List LabelTriplet
  dir : Direction
  isOptional : Bool
  pred : Option (VertexRecord → Hop E → Bool)

/-- One entry of `label_dirs`. -/
structure LabelDir where
  nbrLabel : ℕ
  edgeLabel : ℕ
  dir : Direction
  deriving DecidableEq, Repr

def LabelDir.key (d : LabelDir) : ℕ ×ₗ ℕ ×ₗ ℕ :=
  toLex (d.nbrLabel, toLex (d.edgeLabel, match d.dir with | .out => 0 | .inn => 1 | .both => 2))

/-- A column of vertices with labels that the graph has. A multi-label column keeps the set of its
labels beside the vertices. -/
structure InputColumn (g : StoredGraph E) extends IVertexColumn where
  mlLabels : Finset ℕ
  labels_lt : ∀ v ∈ store.vertices, ¬ v.IsNull → v.label < g.labelNum
  covers : ∀ vs, store = .multiple vs → ∀ v ∈ vs, ¬ v.IsNull → v.label ∈ mlLabels

namespace InputColumn

variable {g : StoredGraph E}

def labelsSet (c : InputColumn g) : Finset ℕ :=
  match c.store with
  | .single label _ => {label}
  | .multiSegment segments => (segments.map Prod.fst).toFinset
  | .multiple _ => c.mlLabels

theorem mem_labelsSet (c : InputColumn g) {v : VertexRecord} (hv : v ∈ c.store.vertices)
    (hnull : ¬ v.IsNull) : v.label ∈ c.labelsSet := by
  unfold labelsSet
  cases hs : c.store with
  | single label vids =>
    rw [hs] at hv
    obtain ⟨x, -, rfl⟩ := mem_map.mp hv
    simp
  | multiSegment segments =>
    rw [hs] at hv
    obtain ⟨s, hs, hv⟩ := mem_flatMap.mp hv
    obtain ⟨x, -, rfl⟩ := mem_map.mp hv
    exact mem_toFinset.mpr (mem_map_of_mem hs)
  | multiple vs =>
    rw [hs] at hv
    exact c.covers vs hs v hv hnull

end InputColumn

namespace StoredGraph

variable (g : StoredGraph E) (p : ExpandParams E)

def tripletDirs (label : ℕ) (τ : LabelTriplet) : List LabelDir :=
  (if τ.srcLabel = label ∧ p.dir ≠ .inn then [⟨τ.dstLabel, τ.edgeLabel, .out⟩] else []) ++
    if τ.dstLabel = label ∧ p.dir ≠ .out then [⟨τ.srcLabel, τ.edgeLabel, .inn⟩] else []

/-- `get_label_dirs`. In a sorted list `std::unique` leaves one of each. -/
def getLabelDirs (label : ℕ) : List LabelDir :=
  (((p.labels.filter g.exist).flatMap (tripletDirs p label)).insertionSort
    fun a b => a.key ≤ b.key).dedup

def viewHops (label : ℕ) (d : LabelDir) (v : ℕ) : List (Hop E) :=
  if d.dir = .out then
    (g.outgoing ⟨label, d.nbrLabel, d.edgeLabel⟩ v).map fun e =>
      ⟨d.edgeLabel, .out, ⟨d.nbrLabel, g.dst e⟩, e⟩
  else
    (g.incoming ⟨d.nbrLabel, label, d.edgeLabel⟩ v).map fun e =>
      ⟨d.edgeLabel, .inn, ⟨d.nbrLabel, g.src e⟩, e⟩

/-- The stored entries of a view at a vertex. `NbrList::empty` looks at these. -/
def viewEntries (label : ℕ) (d : LabelDir) (v : ℕ) : ℕ :=
  if d.dir = .out then g.outEntries ⟨label, d.nbrLabel, d.edgeLabel⟩ v
  else g.inEntries ⟨d.nbrLabel, label, d.edgeLabel⟩ v

def passes (v : VertexRecord) (h : Hop E) : Bool := p.pred.elim true fun pred => pred v h

/-- `expand_sv_np` and `expand_sv_p`: the neighbours in one view. -/
def expandView (v : VertexRecord) (d : LabelDir) : List VertexRecord :=
  ((g.viewHops v.label d v.vid).filter (passes p v)).map Hop.vertex

def dirVisits (label : ℕ) (vids : List ℕ) : List (Visit VertexRecord) :=
  (g.getLabelDirs p label).flatMap fun d => vids.zipIdx.map fun x =>
    (x.2, if x.1 = nullVid then none else some (g.expandView p ⟨label, x.1⟩ d))

/-- The rows of the visits, in optional mode with the bookkeeping of `matched`. -/
def collect (visits : List (Visit VertexRecord)) (n : ℕ) : List (ℕ × Option VertexRecord) :=
  if p.isOptional then (Marks.run visits).finish n else emitted visits

/-- `expand_vertex_impl` for an `SLVertexColumn`. -/
def expandSL (label : ℕ) (vids : List ℕ) : List (ℕ × Option VertexRecord) :=
  if (g.getLabelDirs p label).isEmpty then []
  else collect p (g.dirVisits p label vids) vids.length

def nbrLabels (labels : Finset ℕ) : Finset ℕ :=
  labels.biUnion fun l => ((g.getLabelDirs p l).map LabelDir.nbrLabel).toFinset

def singleViewPerLabel (labels : Finset ℕ) : Bool :=
  decide (∀ l ∈ labels, (g.getLabelDirs p l).length ≤ 1)

/-- The rows of one vertex of an `MLVertexColumn`. Where the code asks `es.empty()`, the vertex gets
no blank row if one of its lists has an entry. -/
def mlRow (asksEmpty : Bool) (i : ℕ) (v : VertexRecord) : List (ℕ × Option VertexRecord) :=
  if p.isOptional ∧ v.IsNull then [(i, none)]
  else plain i nbrs ++ if p.isOptional ∧ blank then [(i, none)] else []
where
  nbrs : List VertexRecord := (g.getLabelDirs p v.label).flatMap (g.expandView p v)
  blank : Bool :=
    if asksEmpty then (g.getLabelDirs p v.label).all fun d => g.viewEntries v.label d v.vid = 0
    else nbrs.isEmpty

def mlRows (asksEmpty : Bool) (vs : List VertexRecord) : List (ℕ × Option VertexRecord) :=
  vs.zipIdx.flatMap fun x => g.mlRow p asksEmpty x.2 x.1

/-- `expand_vertex_impl` for an `MLVertexColumn`. With one view for each label the code takes
`single_views[l]` of every row, and there is none for the label of a null row. -/
def expandML (labels : Finset ℕ) (vs : List VertexRecord) :
    Option (List (ℕ × Option VertexRecord)) :=
  if g.nbrLabels p labels = ∅ then some []
  else if h : labels.card = 1 then
    some (collect p (g.dirVisits p (labels.min' (Finset.card_pos.mp (by omega))) (vs.map (·.vid)))
      vs.length)
  else if g.singleViewPerLabel p labels then
    if vs.all fun v => v.label < g.labelNum then
      some (g.mlRows p (p.pred.isNone && (g.nbrLabels p labels).card ≠ 1) vs)
    else none
  else some (g.mlRows p (p.pred.isNone && (g.nbrLabels p labels).card = 1) vs)

/-- The visits of the segments, with the rows counted from `start`. -/
def segmentVisits : List (ℕ × List ℕ) → ℕ → List (Visit VertexRecord)
  | [], _ => []
  | (label, vids) :: rest, start =>
    ((g.getLabelDirs p label).flatMap fun d => (vids.zipIdx start).map fun x =>
      (x.2, some (if x.1 = nullVid then [] else g.expandView p ⟨label, x.1⟩ d))) ++
    segmentVisits rest (start + vids.length)

/-- `expand_vertex_impl` for an `MSVertexColumn`. -/
def expandMS (segments : List (ℕ × List ℕ)) : List (ℕ × Option VertexRecord) :=
  if g.nbrLabels p (segments.map Prod.fst).toFinset = ∅ then []
  else collect p (g.segmentVisits p segments 0) (VertexColumn.multiSegment segments).vertices.length

/-- `expand_vertex_impl`: every row of the result with the row it comes from. -/
def expandVertexImpl (c : InputColumn g) : Option (List (ℕ × Option VertexRecord)) :=
  match c.store with
  | .single label vids => some (g.expandSL p label vids)
  | .multiple vs => g.expandML p c.mlLabels vs
  | .multiSegment segments => some (g.expandMS p segments)

/-- The views of `mps`, with the label they stand under. -/
def degreeViews (labels : Finset ℕ) : List (ℕ × LabelDir) :=
  p.labels.flatMap fun τ =>
    (if p.dir ≠ .inn ∧ τ.srcLabel ∈ labels then
      [(τ.srcLabel, ⟨τ.dstLabel, τ.edgeLabel, .out⟩)] else []) ++
    if p.dir ≠ .out ∧ τ.dstLabel ∈ labels then
      [(τ.dstLabel, ⟨τ.srcLabel, τ.edgeLabel, .inn⟩)] else []

def viewTriplet (x : ℕ × LabelDir) : LabelTriplet :=
  if x.2.dir = .out then ⟨x.1, x.2.nbrLabel, x.2.edgeLabel⟩ else ⟨x.2.nbrLabel, x.1, x.2.edgeLabel⟩

def degree (views : List (ℕ × LabelDir)) (v : VertexRecord) : ℕ :=
  ((views.filter fun x => x.1 = v.label).map fun x => (g.viewHops x.1 x.2 v.vid).length).sum

/-- The row of a vertex, dropped if it is null or, unless in optional mode, has no edge. -/
def degreeRow (views : List (ℕ × LabelDir)) (x : VertexRecord × ℕ) : Option (ℕ × ℕ) :=
  if x.1.IsNull ∨ p.isOptional = false ∧ g.degree views x.1 = 0 then none
  else some (x.2, g.degree views x.1)

/-- `expand_degree`: every row that is kept with its number of edges. A view of a triplet without
edge table throws. -/
def expandDegree (c : InputColumn g) : Option (List (ℕ × ℕ)) :=
  if (degreeViews p c.labelsSet).all fun x => g.exist (viewTriplet x) then
    if (degreeViews p c.labelsSet).isEmpty then some []
    else some (c.store.vertices.zipIdx.filterMap (g.degreeRow p (degreeViews p c.labelsSet)))
  else none

def expandCount (c : InputColumn g) : Option ℕ :=
  if (degreeViews p c.labelsSet).all fun x => g.exist (viewTriplet x) then
    some (((c.store.vertices.filter fun v => ¬ v.IsNull).map
      (g.degree (degreeViews p c.labelsSet))).sum)
  else none

def tables : List LabelTriplet := (p.labels.filter g.exist).dedup

/-- The relation that is expanded: the hops from a vertex along visible edges of the listed existing
triplets in an allowed direction that pass the predicate. -/
def matching (v : VertexRecord) : List (Hop E) :=
  (g.hopsFrom (g.tables p) p.dir v).filter (passes p v)

def neighbours (c : InputColumn g) (i : ℕ) : List VertexRecord :=
  ((c.store.getVertex i).filter fun v => ¬ v.IsNull).elim [] fun v =>
    (g.matching p v).map Hop.vertex

def expansion (c : InputColumn g) : List (ℕ × Option VertexRecord) :=
  (List.range c.size).flatMap fun i =>
    if p.isOptional then padded i (g.neighbours p c i) else plain i (g.neighbours p c i)

end StoredGraph

end Neug.Execution
