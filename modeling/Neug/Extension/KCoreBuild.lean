import Neug.Extension.KCorePeeling
import Neug.Extension.Snapshot

/-! `KcoreComputer` in plain mode: `BuildGraph`, the peeling, and the rows and counts that `Compute`
reports. -/
namespace Neug.KCore

open Neug.Lib Neug.Extension Neug.Extension.Snapshot List Option

/-- The members that `BuildGraph` sets; the weights in `adj_` are all 1 and are not read. -/
structure Built where
  numVertex : ℕ
  numEdge : ℤ
  globalToLocal : List Vertex
  adj : List (List ℕ)

/-- `BuildGraph` where there are nodes. -/
def buildNodes (S : Snapshot) (offsets : List (Option ℕ)) (numVertex : ℕ) : Option Built := do
  let edges ← S.visitedEdges offsets
  let adj ← (entries edges).foldlM pushNext (List.replicate numVertex [])
  pure ⟨numVertex, Int.bmod (2 * edges.length) (2 ^ 32), S.globalToLocal offsets numVertex, adj⟩

def buildGraph (S : Snapshot) : Option Built := do
  let s ← S.labelOffsets
  if s.2 = 0 then some ⟨0, 0, [], []⟩ else buildNodes S s.1 s.2

structure PlainResult extends Result where
  numEdges : ℤ
  idMapping : List Vertex

def Graph.ofRows (adj : List (List ℕ)) : Option Graph :=
  if h : ∀ row ∈ adj, ∀ v ∈ row, v < adj.length then some ⟨adj, h⟩ else none

/-- The rest of `Compute` after `BuildGraph`. -/
def Built.report (b : Built) : Option PlainResult := do
  let G ← Graph.ofRows b.adj
  let r ← compute G
  pure ⟨r, b.numEdge.tdiv 2, b.globalToLocal⟩

def computePlain (S : Snapshot) : Option PlainResult := do
  let b ← buildGraph S
  b.report

/-- One row for every visible vertex, the number of visible edges, and in the input of the peeling
neighbours exactly where a visible edge joins two vertices. -/
structure Reports (S : Snapshot) (b : Built) (r : PlainResult) : Prop where
  numVertices : r.numVertices = r.idMapping.length
  coreness : r.coreness.length = r.idMapping.length
  nodup : r.idMapping.Nodup
  rows : ∀ x, x ∈ r.idMapping ↔ S.Visible x
  numEdges : r.numEdges = S.visibleEdges.length
  neighbours : ∀ i j x y, r.idMapping[i]? = some x → r.idMapping[j]? = some y →
    (j ∈ b.adj.getD i [] ↔ (x, y) ∈ S.visibleEdges ∨ (y, x) ∈ S.visibleEdges)

/-- What the plain mode needs of the stored graph. The edges of soft-deleted triplets are counted,
in an `int`, and make their ends neighbours. -/
structure Reportable (S : Snapshot) : Prop where
  labels : ∀ x, S.Visible x → x.1 < S.vertexLabelNum
  dense : ∀ label < S.vertexLabelNum, S.vertexLabelValid label = true →
    ∀ v < S.lidNum label, S.isValidVertex label v = true
  small : S.nodes.length < 2 ^ 31
  readable : S.nodes ≠ [] → S.Readable
  edges : S.visibleEdges.length < 2 ^ 30
  deleted : S.deletedEdges.length % 2 ^ 31 = 0
  joined : ∀ e ∈ S.deletedEdges, e ∈ S.visibleEdges ∨ (e.2, e.1) ∈ S.visibleEdges

section

variable {S : Snapshot}

/-- The members that `BuildGraph` leaves if nothing fails on the way. -/
def pushed (S : Snapshot) : Built where
  numVertex := S.nodes.length
  numEdge := Int.bmod (2 * S.visited.length) (2 ^ 32)
  globalToLocal := S.nodes
  adj := (List.range S.nodes.length).map
    (rowOf (entries (S.visited.map fun e => (S.index e.1, S.index e.2))))

theorem buildGraph_empty (h : S.nodes = []) : buildGraph S = some ⟨0, 0, [], []⟩ := by
  rw [buildGraph, labelOffsets_eq, h]
  rfl

theorem buildNodes_eq (hread : S.Readable) :
    buildNodes S ((List.range S.vertexLabelNum).map S.offsetOf) S.nodes.length =
      some (pushed S) := by
  rw [buildNodes, visitedEdges_eq_some_iff.mpr ⟨hread, rfl⟩]
  simp only [bind_eq_bind, bind_some, globalToLocal_eq, length_map]
  rw [foldlM_pushNext fun a ha => (lt_of_mem_entries hread.ends ha).1]
  rfl

theorem buildGraph_pushed (hread : S.Readable) (hsmall : S.nodes.length < 2 ^ 31)
    (hne : S.nodes ≠ []) : buildGraph S = some (pushed S) := by
  rw [buildGraph, labelOffsets_bind _ _ hne, if_pos hsmall, buildNodes_eq hread]

theorem of_buildGraph_some {b : Built} (h : buildGraph S = some b) (hne : S.nodes ≠ []) :
    S.nodes.length < 2 ^ 31 ∧ S.Readable ∧ b = pushed S := by
  rw [buildGraph, labelOffsets_bind _ _ hne] at h
  split_ifs at h with hsmall
  have hread : S.Readable := by
    obtain ⟨edges, hedges, -⟩ := bind_eq_some_iff.mp h
    exact (visitedEdges_eq_some_iff.mp hedges).1
  rw [buildNodes_eq hread] at h
  exact ⟨hsmall, hread, (some.inj h).symm⟩

theorem mem_entries {edges : List (ℕ × ℕ)} {u v : ℕ} :
    (u, v) ∈ entries edges ↔ (u, v) ∈ edges ∨ (v, u) ∈ edges := by
  simp only [entries, mem_flatMap, mem_cons, not_mem_nil, or_false, Prod.mk.injEq]
  constructor
  · rintro ⟨e, he, ⟨rfl, rfl⟩ | ⟨rfl, rfl⟩⟩
    · exact .inl he
    · exact .inr he
  · rintro (h | h)
    · exact ⟨_, h, .inl ⟨rfl, rfl⟩⟩
    · exact ⟨_, h, .inr ⟨rfl, rfl⟩⟩

theorem mem_pushed_adj (hread : S.Readable) {i j : ℕ} {x y : Vertex} (hx : S.nodes[i]? = some x)
    (hy : S.nodes[j]? = some y) :
    j ∈ (pushed S).adj.getD i [] ↔ (x, y) ∈ S.visited ∨ (y, x) ∈ S.visited := by
  obtain ⟨hmem, rfl⟩ := getElem?_nodes.mp hx
  obtain ⟨hmem', rfl⟩ := getElem?_nodes.mp hy
  rw [pushed, getD_eq_getElem?_getD, getElem?_map_range _ (index_lt hmem), getD_some,
    rowOf_entries hread.ends hmem, ← mem_incident, List.mem_map]
  constructor
  · rintro ⟨z, hz, heq⟩
    have hzn : z ∈ S.nodes := by
      rcases mem_incident.mp hz with h | h
      · exact (hread.ends _ h).2
      · exact (hread.ends _ h).1
    have hget := getElem?_index hzn
    rw [heq, getElem?_index hmem', some.injEq] at hget
    rwa [hget]
  · intro h
    exact ⟨y, h, rfl⟩

theorem report_pushed (hread : S.Readable) (hne : S.nodes ≠ []) :
    ∃ r, (pushed S).report = some r ∧ r.numVertices = S.nodes.length ∧
      r.coreness.length = S.nodes.length ∧ r.idMapping = S.nodes ∧
      r.numEdges = (pushed S).numEdge.tdiv 2 := by
  have hlen : (pushed S).adj.length = S.nodes.length := by simp [pushed]
  have hrow : ∀ u, (pushed S).adj.getD u [] = if u < S.nodes.length then
      rowOf (entries (S.visited.map fun e => (S.index e.1, S.index e.2))) u else [] := by
    intro u
    split_ifs with hu
    · rw [pushed, getD_eq_getElem?_getD, getElem?_map_range _ hu, getD_some]
    · exact getD_eq_default _ _ (by omega)
  have hrange : ∀ row ∈ (pushed S).adj, ∀ v ∈ row, v < (pushed S).adj.length := by
    intro row hmem v hv
    obtain ⟨u, hu, rfl⟩ := mem_map.mp hmem
    rw [hlen]
    exact (lt_of_mem_entries hread.ends (mem_rowOf.mp hv)).2
  have hsymm : Graph.Symmetric ⟨(pushed S).adj, hrange⟩ := by
    intro u v hv
    rw [hrow] at hv ⊢
    split_ifs at hv
    · have hentry := mem_rowOf.mp hv
      rw [if_pos (lt_of_mem_entries hread.ends hentry).2, mem_rowOf, mem_entries, or_comm]
      exact mem_entries.mp hentry
    · cases hv
  obtain ⟨coreness, hrun, md, level, s, hpeeled⟩ := runKCore_peeled hsymm
    (replicate (pushed S).adj.length 0) (by simp)
  have hpos : (pushed S).adj.length ≠ 0 := by
    rw [hlen, ne_eq, length_eq_zero_iff]
    exact hne
  have hreport : (pushed S).report = some ⟨⟨(pushed S).adj.length, coreness.foldl max 0,
      coreness.count (coreness.foldl max 0), coreness⟩, (pushed S).numEdge.tdiv 2, S.nodes⟩ := by
    simp only [Built.report, Graph.ofRows, dif_pos hrange, compute, if_neg hpos, hrun,
      bind_eq_bind, bind_some, Option.pure_def]
    rw [pushed]
  refine ⟨_, hreport, hlen, hpeeled.length.trans hlen, ?_, ?_⟩ <;> dsimp only

end

theorem bmod_tdiv_eq_iff (visible deleted : ℕ) :
    (Int.bmod (2 * ((visible + deleted : ℕ) : ℤ)) (2 ^ 32)).tdiv 2 = visible ↔
      visible < 2 ^ 30 ∧ deleted % 2 ^ 31 = 0 := by
  obtain ⟨q, hq⟩ : ∃ q, Int.bmod (2 * (visible + deleted : ℕ)) (2 ^ 32) = 2 * q := by
    rw [Int.bmod_def]
    split_ifs
    · exact ⟨((visible + deleted) : ℤ) % 2 ^ 31, by omega⟩
    · exact ⟨((visible + deleted) : ℤ) % 2 ^ 31 - 2 ^ 31, by omega⟩
  rw [hq, Int.mul_tdiv_cancel_left _ (by norm_num)]
  rw [Int.bmod_def] at hq
  split_ifs at hq <;> omega

theorem numEdge_pushed (S : Snapshot) :
    (pushed S).numEdge = Int.bmod (2 * (S.visited.length : ℤ)) (2 ^ 32) := by
  rw [pushed]

theorem computePlain_eq {S : Snapshot} {b : Built} (h : buildGraph S = some b) :
    computePlain S = b.report := by
  rw [computePlain, h]
  rfl

/-- `Compute` in plain mode reports the stored graph exactly if every valid label with a visible
vertex and every label of an edge schema has an id below the number of labels left, all ids given in
the valid labels are visible, there are fewer than `2 ^ 30` visible edges, and the edges of
soft-deleted triplets change neither their count in an `int` nor the neighbours. -/
theorem computePlain_reports_iff (S : Snapshot) :
    (∃ b r, buildGraph S = some b ∧ computePlain S = some r ∧ Reports S b r) ↔ Reportable S := by
  constructor
  · rintro ⟨b, r, hb, hr, hrep⟩
    rw [computePlain_eq hb] at hr
    by_cases hne : S.nodes = []
    · rw [buildGraph_empty hne, some.injEq] at hb
      subst hb
      have hmapping : r.idMapping = [] := by
        have hreport : (⟨0, 0, [], []⟩ : Built).report = some ⟨{}, 0, []⟩ := rfl
        rw [hreport, some.injEq] at hr
        rw [← hr]
      have hnone : ∀ x, ¬ S.Visible x := fun x hx => by
        have hmem := (hrep.rows x).mpr hx
        rw [hmapping] at hmem
        cases hmem
      obtain ⟨hvisible, hdeleted⟩ := edges_eq_nil hnone
      refine ⟨fun x hx => absurd hx (hnone x), fun label hlt hvalid v hv => ?_, by simp [hne],
        fun h => absurd hne h, by simp [hvisible], by simp [hdeleted], by simp [hdeleted]⟩
      have hmem : (label, v) ∈ S.nodes := mem_nodes.mpr ⟨hlt, hvalid, hv⟩
      rw [hne] at hmem
      cases hmem
    · obtain ⟨hsmall, hread, rfl⟩ := of_buildGraph_some hb hne
      obtain ⟨r', hr', -, -, hmapping, hcount⟩ := report_pushed hread hne
      rw [hr, some.injEq] at hr'
      subst hr'
      have hnodes : ∀ x, x ∈ S.nodes ↔ S.Visible x := by
        rw [← hmapping]
        exact hrep.rows
      obtain ⟨hlabels, hdense⟩ := mem_nodes_iff_visible.mp hnodes
      have hperm := visited_perm hread hnodes
      rw [hrep.numEdges, numEdge_pushed, hperm.length_eq, length_append] at hcount
      obtain ⟨hedges, hdeleted⟩ := (bmod_tdiv_eq_iff _ _).mp hcount.symm
      refine ⟨hlabels, hdense, hsmall, fun _ => hread, hedges, hdeleted, fun e he => ?_⟩
      obtain ⟨hsrc, hdst⟩ := visible_of_mem_deletedEdges he
      have hx := getElem?_index ((hnodes _).mpr hsrc)
      have hy := getElem?_index ((hnodes _).mpr hdst)
      have hvisited : e ∈ S.visited := hperm.mem_iff.mpr (mem_append_right _ he)
      rw [← hmapping] at hx hy
      refine (hrep.neighbours _ _ _ _ hx hy).mp ?_
      rw [hmapping] at hx hy
      exact (mem_pushed_adj hread hx hy).mpr (.inl hvisited)
  · intro h
    have hnodes := mem_nodes_iff_visible.mpr ⟨h.labels, h.dense⟩
    by_cases hne : S.nodes = []
    · have hvisible : S.visibleEdges = [] := (edges_eq_nil fun x hx => by
        have hmem := (hnodes x).mpr hx
        rw [hne] at hmem
        cases hmem).1
      have hbuild := buildGraph_empty hne
      refine ⟨_, ⟨{}, 0, []⟩, hbuild, computePlain_eq hbuild, rfl, rfl, nodup_nil,
        fun x => ?_, by simp [hvisible], fun i j x y hx => ?_⟩
      · rw [← hnodes x, hne]
      · simp at hx
    · have hread := h.readable hne
      have hperm := visited_perm hread hnodes
      have hbuild := buildGraph_pushed hread h.small hne
      obtain ⟨r, hr, hnum, hcoreness, hmapping, hcount⟩ := report_pushed hread hne
      refine ⟨_, r, hbuild, (computePlain_eq hbuild).trans hr, ?_, ?_, ?_, ?_, ?_, ?_⟩
      · rw [hnum, hmapping]
      · rw [hcoreness, hmapping]
      · rw [hmapping]
        exact nodup_nodes S
      · rw [hmapping]
        exact hnodes
      · rw [hcount, numEdge_pushed, hperm.length_eq, length_append]
        exact (bmod_tdiv_eq_iff _ _).mpr ⟨h.edges, h.deleted⟩
      · intro i j x y hx hy
        rw [hmapping] at hx hy
        rw [mem_pushed_adj hread hx hy, hperm.mem_iff, hperm.mem_iff, mem_append,
          mem_append]
        constructor
        · rintro ((hv | hd) | hv | hd)
          · exact .inl hv
          · exact h.joined _ hd
          · exact .inr hv
          · exact (h.joined _ hd).symm
        · rintro (hv | hv)
          · exact .inl (.inl hv)
          · exact .inr (.inl hv)

/-- After the drop of a label the vertex of the last label is not reported; a deleted vertex is. -/
theorem computePlain_misses_label : (droppedFirst.Visible (1, 0) ∧
        ∃ r, computePlain droppedFirst = some r ∧ r.idMapping = []) ∧
      ¬ deletedVertex.Visible (0, 0) ∧
      ∃ r, computePlain deletedVertex = some r ∧ (0, 0) ∈ r.idMapping := by
  have hread : deletedVertex.Readable := by decide
  have hbuild := buildGraph_pushed hread (by decide) (by decide)
  obtain ⟨r, hr, -, -, hmapping, -⟩ := report_pushed hread (by decide)
  refine ⟨⟨by decide, ⟨{}, 0, []⟩, computePlain_eq (buildGraph_empty (by decide)), rfl⟩, by decide,
    r, (computePlain_eq hbuild).trans hr, ?_⟩
  rw [hmapping]
  decide

end Neug.KCore
