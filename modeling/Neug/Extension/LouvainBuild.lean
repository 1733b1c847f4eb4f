import Neug.Extension.Snapshot

/-! `LouvainComputer::BuildGraph`: the nodes, the counting pass, and the pass that fills the rows at
atomic cursors, in whatever order the threads reach them. -/
namespace Neug.Louvain

open Neug.Lib Neug.Extension Neug.Extension.Snapshot List Option

structure Schedule where
  order : List (ℕ × ℕ) → List (ℕ × ℕ)
  perm : ∀ l, (order l).Perm l

structure Built (R : Type) where
  numVertex : ℕ
  numEdge : ℤ
  globalToLocal : List Vertex
  adj : List (List (ℕ × R))

variable {R : Type} [Zero R] [One R]

/-- `adj_[u].resize(deg[u])`, where a negative `int` is no size. -/
def allocate (deg : List ℕ) : Option (List (List (ℕ × R))) :=
  deg.mapM fun d => if d < 2 ^ 31 then some (List.replicate d (0, 0)) else none

def fillAdjacency (T : Schedule) (numVertex : ℕ) (edges : List (ℕ × ℕ)) :
    Option (List (List (ℕ × R))) := do
  let deg := (entries edges).foldl (fun deg e => deg.modify e.1 (· + 1))
    (List.replicate numVertex 0)
  let rows ← allocate deg
  let filled ← ((T.order (entries edges)).map fun e => (e.1, (e.2, (1 : R)))).foldlM placeNext
    (List.replicate numVertex 0, rows)
  pure filled.2

/-- `BuildGraph` where there are nodes. -/
def buildNodes (T : Schedule) (S : Snapshot) (offsets : List (Option ℕ)) (numVertex : ℕ) :
    Option (Built R) := do
  let edges ← S.visitedEdges offsets
  let adj ← fillAdjacency T numVertex edges
  pure ⟨numVertex, Int.bmod edges.length (2 ^ 32), S.globalToLocal offsets numVertex, adj⟩

def buildGraph (T : Schedule) (S : Snapshot) : Option (Built R) := do
  let s ← S.labelOffsets
  if s.2 = 0 then some ⟨0, 0, [], []⟩ else buildNodes T S s.1 s.2

/-- One node for every visible vertex, and in the row of a node one entry of weight 1 for every end
of a visible edge there, with the node of the other end. -/
structure Built.Represents (b : Built R) (S : Snapshot) : Prop where
  numVertex : b.numVertex = b.globalToLocal.length
  nodup : b.globalToLocal.Nodup
  nodes : ∀ x, x ∈ b.globalToLocal ↔ S.Visible x
  length : b.adj.length = b.globalToLocal.length
  rows : ∀ i x, b.globalToLocal[i]? = some x →
    ((b.adj.getD i []).map fun e => (b.globalToLocal[e.1]?, e.2)).Perm
      ((incident S.visibleEdges x).map fun y => (some y, 1))

/-- What `BuildGraph` needs of the stored graph. -/
structure Buildable (S : Snapshot) : Prop where
  labels : ∀ x, S.Visible x → x.1 < S.vertexLabelNum
  dense : ∀ label < S.vertexLabelNum, S.vertexLabelValid label = true →
    ∀ v < S.lidNum label, S.isValidVertex label v = true
  small : S.nodes.length < 2 ^ 31
  readable : S.nodes ≠ [] → S.Readable
  deleted : S.deletedEdges = []
  degrees : ∀ x, (incident S.visibleEdges x).length < 2 ^ 31

section

variable (T : Schedule) {n : ℕ} {edges : List (ℕ × ℕ)}

theorem rowOf_map_snd {α β : Type} (f : α → β) (l : List (ℕ × α)) (i : ℕ) :
    rowOf (l.map fun e => (e.1, f e.2)) i = (rowOf l i).map f := by
  rw [rowOf, rowOf, List.filter_map, List.map_map, List.map_map]
  rfl

omit [One R] in
theorem allocate_eq (deg : List ℕ) : (allocate deg : Option (List (List (ℕ × R)))) =
    if ∀ d ∈ deg, d < 2 ^ 31 then some (deg.map fun d => replicate d (0, 0)) else none := by
  split_ifs with h
  · exact mapM_eq_some_map fun d hd => if_pos (h d hd)
  · push Not at h
    obtain ⟨d, hd, hle⟩ := h
    exact mapM_eq_none hd (if_neg hle.not_gt)

/-- With rows that an `int` can count, no cursor leaves its row and every cell is filled. -/
theorem fillAdjacency_eq (hedges : ∀ a ∈ entries edges, a.1 < n) :
    (fillAdjacency T n edges : Option (List (List (ℕ × R)))) =
      if ∀ i < n, (rowOf (entries edges) i).length < 2 ^ 31 then
        some ((range n).map fun i => (rowOf (T.order (entries edges)) i).map fun v => (v, 1))
      else none := by
  have hcond : (∀ d ∈ (range n).map fun i => (rowOf (entries edges) i).length, d < 2 ^ 31) ↔
      ∀ i < n, (rowOf (entries edges) i).length < 2 ^ 31 := by
    simp only [List.forall_mem_map, mem_range]
  rw [fillAdjacency, foldl_modify_succ, allocate_eq]
  simp only [hcond]
  split_ifs with h
  · have hperm := (T.perm (entries edges)).map fun e => (e.1, (e.2, (1 : R)))
    obtain ⟨cursors, hfill⟩ := foldlM_placeNext
      (l := (entries edges).map fun e => (e.1, (e.2, 1)))
      (by simpa only [List.forall_mem_map] using hedges) hperm (0, 0)
    have hrows : rowOf ((T.order (entries edges)).map fun e => (e.1, (e.2, (1 : R)))) =
        fun i => (rowOf (T.order (entries edges)) i).map fun v => (v, 1) :=
      funext fun i => rowOf_map_snd (fun v => (v, 1)) _ i
    simp only [rowOf_map_snd (fun v => (v, (1 : R))) (entries edges), length_map] at hfill
    simp only [List.map_map, Function.comp_def, bind_eq_bind, bind_some, hfill, hrows]
    rfl
  · rfl

end

section

variable (T : Schedule) {S : Snapshot}

/-- The members that `BuildGraph` leaves if nothing fails on the way. -/
def filled (S : Snapshot) : Built R where
  numVertex := S.nodes.length
  numEdge := Int.bmod S.visited.length (2 ^ 32)
  globalToLocal := S.nodes
  adj := (List.range S.nodes.length).map fun i =>
    (rowOf (T.order (entries (S.visited.map fun e => (S.index e.1, S.index e.2)))) i).map
      fun v => (v, 1)

theorem buildGraph_empty (h : S.nodes = []) : buildGraph T S = some (⟨0, 0, [], []⟩ : Built R) := by
  rw [buildGraph, labelOffsets_eq, h]
  rfl

variable (hread : S.Readable)

include hread

theorem rows_small_iff : (∀ i < S.nodes.length, (rowOf (entries (S.visited.map
    fun e => (S.index e.1, S.index e.2))) i).length < 2 ^ 31) ↔
      ∀ x ∈ S.nodes, (incident S.visited x).length < 2 ^ 31 := by
  constructor
  · intro h x hx
    have hlt := h (S.index x) (index_lt hx)
    rwa [rowOf_entries hread.ends hx, length_map] at hlt
  · intro h i hi
    obtain ⟨hx, hindex⟩ := getElem?_nodes.mp (getElem?_eq_getElem hi)
    rw [hindex, rowOf_entries hread.ends hx, length_map]
    exact h _ hx

theorem buildNodes_eq : (buildNodes T S ((range S.vertexLabelNum).map S.offsetOf) S.nodes.length :
      Option (Built R)) =
      if ∀ i < S.nodes.length, (rowOf (entries (S.visited.map
          fun e => (S.index e.1, S.index e.2))) i).length < 2 ^ 31 then
        some (filled T S) else none := by
  rw [buildNodes, visitedEdges_eq_some_iff.mpr ⟨hread, rfl⟩]
  simp only [bind_eq_bind, bind_some, globalToLocal_eq, length_map]
  rw [fillAdjacency_eq T fun a ha => (lt_of_mem_entries hread.ends ha).1]
  split_ifs <;> rfl

theorem buildGraph_filled (hsmall : S.nodes.length < 2 ^ 31) (hne : S.nodes ≠ [])
    (hdegrees : ∀ x ∈ S.nodes, (incident S.visited x).length < 2 ^ 31) :
    buildGraph T S = some (filled T S : Built R) := by
  rw [buildGraph, labelOffsets_bind _ _ hne, if_pos hsmall, buildNodes_eq T hread,
    if_pos ((rows_small_iff hread).mpr hdegrees)]

omit [Zero R] in
/-- The row of a node holds the nodes at the other ends of the visited edges, in some order. -/
theorem filled_rows {i : ℕ} {x : Vertex} (hx : S.nodes[i]? = some x) :
    (((filled T S : Built R).adj.getD i []).map fun e => (S.nodes[e.1]?, e.2)).Perm
      ((incident S.visited x).map fun y => (some y, 1)) := by
  obtain ⟨hmem, rfl⟩ := getElem?_nodes.mp hx
  have hrow : (filled T S : Built R).adj.getD (S.index x) [] =
      (rowOf (T.order (entries (S.visited.map fun e => (S.index e.1, S.index e.2))))
        (S.index x)).map fun v => (v, 1) := by
    rw [filled, getD_eq_getElem?_getD, getElem?_map_range _ (index_lt hmem), getD_some]
  have hperm := rowOf_perm (T.perm (entries (S.visited.map fun e => (S.index e.1, S.index e.2))))
    (S.index x)
  rw [rowOf_entries hread.ends hmem] at hperm
  have hnode : ∀ y ∈ incident S.visited x, S.nodes[S.index y]? = some y := by
    intro y hy
    rcases mem_incident.mp hy with hy | hy
    · exact getElem?_index (hread.ends _ hy).2
    · exact getElem?_index (hread.ends _ hy).1
  rw [hrow, List.map_map]
  refine (hperm.map _).trans ?_
  rw [List.map_map]
  refine List.Perm.of_eq (map_congr_left fun y hy => ?_)
  exact Prod.ext (hnode y hy) rfl

end

theorem of_buildGraph_some (T : Schedule) {S : Snapshot} {b : Built R}
    (h : buildGraph T S = some b) (hne : S.nodes ≠ []) : S.nodes.length < 2 ^ 31 ∧ S.Readable ∧
      (∀ x ∈ S.nodes, (incident S.visited x).length < 2 ^ 31) ∧ b = filled T S := by
  rw [buildGraph, labelOffsets_bind _ _ hne] at h
  split_ifs at h with hsmall
  have hread : S.Readable := by
    obtain ⟨edges, hedges, -⟩ := bind_eq_some_iff.mp h
    exact (visitedEdges_eq_some_iff.mp hedges).1
  rw [buildNodes_eq T hread] at h
  split_ifs at h with hrows
  exact ⟨hsmall, hread, (rows_small_iff hread).mp hrows, (some.inj h).symm⟩

/-- The order in which the threads reach the cursors shows only in the order of the rows. -/
theorem buildGraph_schedule (T T' : Schedule) (S : Snapshot) :
    Option.Rel (fun b b' : Built R => ∃ adj, b' = { b with adj } ∧ Forall₂ Perm b.adj adj)
      (buildGraph T S) (buildGraph T' S) := by
  by_cases hne : S.nodes = []
  · rw [buildGraph_empty T hne, buildGraph_empty T' hne]
    exact .some ⟨[], rfl, .nil⟩
  rw [buildGraph, buildGraph, labelOffsets_bind _ _ hne, labelOffsets_bind _ _ hne]
  by_cases hread : S.Readable
  · rw [buildNodes_eq T hread, buildNodes_eq T' hread]
    split_ifs
    · refine .some ⟨(filled T' S).adj, by simp only [filled], ?_⟩
      simp only [filled, forall₂_map_left_iff, forall₂_map_right_iff, forall₂_same]
      exact fun i _ => (rowOf_perm ((T.perm _).trans (T'.perm _).symm) i).map _
    all_goals exact .none
  · have hnone := eq_none_iff_forall_ne_some.mpr fun e he =>
      hread (visitedEdges_eq_some_iff.mp he).1
    rw [buildNodes, buildNodes, hnone]
    split_ifs <;> exact .none

/-- Where rows agree with the visible edges, no soft-deleted triplet has an edge left. -/
theorem deletedEdges_eq_nil {S : Snapshot} (hread : S.Readable)
    (hnodes : ∀ x, x ∈ S.nodes ↔ S.Visible x) (hrows : ∀ x ∈ S.nodes,
      (incident S.visited x).length = (incident S.visibleEdges x).length) :
    S.deletedEdges = [] := by
  refine eq_nil_iff_forall_not_mem.mpr fun e he => ?_
  have hlen := hrows e.1 ((hnodes _).mpr (visible_of_mem_deletedEdges he).1)
  rw [(incident_perm (visited_perm hread hnodes) e.1).length_eq, incident,
    flatMap_append, ← incident, ← incident, length_append] at hlen
  have hnil : incident S.deletedEdges e.1 = [] := length_eq_zero_iff.mp (by omega)
  have hmem : e.2 ∈ incident S.deletedEdges e.1 := mem_incident.mpr (.inl he)
  rw [hnil] at hmem
  cases hmem

/-- `BuildGraph` represents the stored graph exactly if every valid label with a visible vertex and
every label of an edge schema has an id below the number of labels left, all ids given in the valid
labels are visible, the soft-deleted triplets have no edges, and the counts fit an `int`. -/
theorem buildGraph_represents_iff (T : Schedule) (S : Snapshot) :
    (∃ b : Built R, buildGraph T S = some b ∧ b.Represents S) ↔ Buildable S := by
  constructor
  · rintro ⟨b, hb, hrep⟩
    by_cases hne : S.nodes = []
    · rw [buildGraph_empty T hne, some.injEq] at hb
      subst hb
      have hnone : ∀ x, ¬ S.Visible x := fun x hx => by simpa using (hrep.nodes x).mpr hx
      obtain ⟨hvisible, hdeleted⟩ := edges_eq_nil hnone
      refine ⟨fun x hx => absurd hx (hnone x), fun label hlt hvalid v hv => ?_, by simp [hne],
        fun h => absurd hne h, hdeleted, fun x => by simp [hvisible, incident]⟩
      have hmem : (label, v) ∈ S.nodes := mem_nodes.mpr ⟨hlt, hvalid, hv⟩
      rw [hne] at hmem
      cases hmem
    · obtain ⟨hsmall, hread, hdegrees, rfl⟩ := of_buildGraph_some T hb hne
      have hnodes : ∀ x, x ∈ S.nodes ↔ S.Visible x := hrep.nodes
      have hrows : ∀ x ∈ S.nodes,
          (incident S.visited x).length = (incident S.visibleEdges x).length := by
        intro x hx
        have hget := getElem?_index hx
        have hcode := (filled_rows (R := R) T hread hget).length_eq
        have hclaim := (hrep.rows _ _ hget).length_eq
        simp only [length_map] at hcode hclaim
        exact hcode.symm.trans hclaim
      obtain ⟨hlabels, hdense⟩ := mem_nodes_iff_visible.mp hnodes
      refine ⟨hlabels, hdense, hsmall, fun _ => hread, deletedEdges_eq_nil hread hnodes hrows,
        fun x => ?_⟩
      by_cases hx : x ∈ S.nodes
      · rw [← hrows x hx]
        exact hdegrees x hx
      · have hnil : incident S.visibleEdges x = [] := by
          refine eq_nil_iff_forall_not_mem.mpr fun y hy => hx ((hnodes x).mpr ?_)
          rcases mem_incident.mp hy with hy | hy
          · exact (visible_of_mem_visibleEdges hy).1
          · exact (visible_of_mem_visibleEdges hy).2
        rw [hnil]
        exact Nat.two_pow_pos 31
  · intro h
    have hnodes := mem_nodes_iff_visible.mpr ⟨h.labels, h.dense⟩
    by_cases hne : S.nodes = []
    · refine ⟨_, buildGraph_empty T hne, rfl, nodup_nil, fun x => ?_, rfl, fun i x hx => ?_⟩
      · rw [← hnodes x, hne]
      · simp at hx
    · have hread := h.readable hne
      have hperm := visited_perm hread hnodes
      rw [h.deleted, append_nil] at hperm
      have hdegrees : ∀ x ∈ S.nodes, (incident S.visited x).length < 2 ^ 31 := by
        intro x _
        rw [(incident_perm hperm x).length_eq]
        exact h.degrees x
      refine ⟨filled T S, buildGraph_filled T hread h.small hne hdegrees, rfl, nodup_nodes S,
        hnodes, by simp [filled], fun i x hx => ?_⟩
      exact (filled_rows T hread hx).trans ((incident_perm hperm x).map _)

def Schedule.inOrder : Schedule := ⟨id, fun l => List.Perm.refl l⟩

/-- After the drop of a label the last label is not counted, so its vertex gets no node; a deleted
vertex keeps its node. -/
theorem buildGraph_misses_label : (droppedFirst.Visible (1, 0) ∧
        buildGraph Schedule.inOrder droppedFirst = some (⟨0, 0, [], []⟩ : Built ℚ)) ∧
      ¬ deletedVertex.Visible (0, 0) ∧
      ∃ b : Built ℚ, buildGraph Schedule.inOrder deletedVertex = some b ∧
        (0, 0) ∈ b.globalToLocal :=
  ⟨⟨by decide, buildGraph_empty _ (by decide)⟩, by decide, _,
    buildGraph_filled _ (by decide) (by decide) (by decide) (by decide), by decide⟩

end Neug.Louvain
