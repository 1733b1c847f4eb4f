import Neug.Execution.PathSearch
import Neug.Execution.WalkExpansion

/-! Any-shortest expansion. The tree of the search holds one shortest path to every vertex but the
root, and the bounds are compared with the depth at which the search ends. -/
namespace Neug.Execution
open Neug.Lib List Option

variable {E : Type} {g : ReadGraph E} {p : PathExpandParams} {col : VertexColumn}

/-- The rows name one path to every vertex that is wanted at its distance, and the paths are
shortest ones. -/
def ShortestEach (m : Moves VertexRecord (Hop E)) (col : VertexColumn)
    (wanted : VertexRecord → ℕ → Prop) (r : List (Path E × ℕ)) : Prop :=
  Enumerates (r.map endRow)
      (fun y => ∃ v, col.vertices[y.2]? = some v ∧ ∃ d, m.IsDist v y.1 d ∧ wanted y.1 d) ∧
    ∀ x ∈ r, col.vertices[x.2]? = some x.1.start ∧ m.IsWalk x.1.start x.1.hops ∧
      m.IsDist x.1.start x.1.endNode x.1.length

def ShortestFrom (m : Moves VertexRecord (Hop E)) (v : VertexRecord)
    (wanted : VertexRecord → ℕ → Prop) (paths : List (Path E)) : Prop :=
  Enumerates (paths.map Path.endNode) (fun u => ∃ d, m.IsDist v u d ∧ wanted u d) ∧
    ∀ x ∈ paths, x.start = v ∧ m.IsWalk x.start x.hops ∧ m.IsDist x.start x.endNode x.length

theorem shortestEach_rowPaths {m : Moves VertexRecord (Hop E)} {f : VertexRecord → List (Path E)}
    {wanted : VertexRecord → ℕ → Prop} : ShortestEach m col wanted (rowPaths col f) ↔
      ∀ v ∈ col.vertices, ShortestFrom m v wanted (f v) := by
  have hends : Enumerates ((rowPaths col f).map endRow)
      (fun y => ∃ v, col.vertices[y.2]? = some v ∧ ∃ d, m.IsDist v y.1 d ∧ wanted y.1 d) ↔
      ∀ v ∈ col.vertices, Enumerates ((f v).map Path.endNode)
        (fun u => ∃ d, m.IsDist v u d ∧ wanted u d) :=
    enumerates_rowPaths Path.endNode fun v u => ∃ d, m.IsDist v u d ∧ wanted u d
  constructor
  · rintro ⟨henum, hpaths⟩ v hv
    refine ⟨hends.mp henum v hv, fun x hx => ?_⟩
    obtain ⟨i, hi⟩ := getElem?_of_mem hv
    obtain ⟨hrow, hwalk⟩ := hpaths (x, i) (mem_rowPaths.mpr ⟨v, hi, hx⟩)
    exact ⟨some.inj (hrow.symm.trans hi), hwalk⟩
  · intro h
    refine ⟨hends.mpr fun v hv => (h v hv).1, fun x hx => ?_⟩
    obtain ⟨v, hrow, hpath⟩ := mem_rowPaths.mp hx
    obtain ⟨hstart, hwalk⟩ := (h v (mem_of_getElem? hrow)).2 _ hpath
    exact ⟨by rw [hstart]; exact hrow, hwalk⟩

section

variable {root : VertexRecord}

/-- The search has run to depth `K`: every level before was expanded, and this one reaches the upper
bound or is empty. -/
structure EndsAt (m : Moves VertexRecord (Hop E)) (root : VertexRecord) (upper : ℤ) (K : ℕ) :
    Prop where
  lt_upper : 0 < K → K < upper
  nonempty : ∀ j < K, (m.level (· = root) root j).next ≠ []
  stops : upper ≤ K + 1 ∨ (m.level (· = root) root K).next = []

theorem bfsLoop_eq (rounds depth : ℕ) (h : p.hopUpper ≤ depth + rounds)
    (hlt : 0 < depth → depth < p.hopUpper)
    (hne : ∀ j < depth, ((g.moves p.labels p.dir).level (· = root) root j).next ≠ []) :
    ∃ K, bfsLoop g p root rounds depth ((g.moves p.labels p.dir).level (· = root) root depth) =
        (K, (g.moves p.labels p.dir).level (· = root) root K) ∧
      EndsAt (g.moves p.labels p.dir) root p.hopUpper K := by
  induction rounds generalizing depth with
  | zero => exact ⟨depth, rfl, hlt, hne, .inl (by omega)⟩
  | succ rounds ih =>
    rw [bfsLoop]
    split_ifs with hgo
    · refine ih (depth + 1) (by push_cast; omega) (fun _ => by push_cast; exact hgo.1) ?_
      intro j hj
      rcases Nat.lt_succ_iff_lt_or_eq.mp hj with hj | rfl
      · exact hne j hj
      · exact hgo.2
    · refine ⟨depth, rfl, hlt, hne, ?_⟩
      by_contra! hstop
      exact hgo ⟨by omega, hstop.2⟩

variable {m : Moves VertexRecord (Hop E)} {upper : ℤ} {K d : ℕ} {u : VertexRecord}

theorem mem_tree_iff : u ∈ (m.level (· = root) root K).tree.map m.entered ↔
    u ≠ root ∧ ∃ d, m.IsDist root u d ∧ d ≤ K := by
  rw [m.mem_tree (· = root) (fun x hx => by simpa using hx) K u, decide_eq_true_eq]
  refine and_congr_right fun hne => ?_
  constructor
  · rintro ⟨j, hpos, hle, hj⟩
    obtain ⟨k, hk, hdist⟩ := hj.exists_isHopDist m hpos
    exact ⟨k, (m.isHopDist_iff hne).mp hdist, hk.trans hle⟩
  · rintro ⟨d, hd, hle⟩
    have hd' := (m.isHopDist_iff hne).mpr hd
    exact ⟨d, hd'.1.1, hle, hd.1⟩

theorem mem_next_iff (hpos : 0 < d) : u ∈ (m.level (· = root) root d).next ↔ m.IsDist root u d := by
  obtain ⟨d, rfl⟩ : ∃ k, d = k + 1 := ⟨d - 1, by omega⟩
  have hmem := m.mem_next (· = root) (fun x hx => by simpa using hx) d u
  rw [decide_eq_true_eq] at hmem
  rw [hmem]
  constructor
  · rintro ⟨hne, h⟩
    exact (m.isHopDist_iff hne).mp h
  · intro h
    exact ⟨h.ne m hpos, (m.isHopDist_iff (h.ne m hpos)).mpr h⟩

theorem EndsAt.dist_le (h : EndsAt m root upper K) (hd : m.IsDist root u d) (hup : d < upper) :
    d ≤ K := by
  rcases h.stops with hstop | hempty
  · omega
  · by_contra hlt
    cases K with
    | zero => cases hempty
    | succ K =>
      obtain ⟨x, hx⟩ := hd.exists_at m (by omega : K + 1 ≤ d)
      have := (mem_next_iff (Nat.succ_pos K)).mpr hx
      rw [hempty] at this
      cases this

theorem EndsAt.exists_dist (h : EndsAt m root upper K) (hd : d < K) : ∃ u, m.IsDist root u d := by
  cases d with
  | zero => exact ⟨root, m.isDist_self root⟩
  | succ d =>
    obtain ⟨u, hu⟩ := exists_mem_of_ne_nil _ (h.nonempty (d + 1) hd)
    exact ⟨u, (mem_next_iff (Nat.succ_pos d)).mp hu⟩

theorem trace_tree {e : VertexRecord × Hop E} (he : e ∈ (m.level (· = root) root K).tree) :
    ∃ w, m.trace root (m.level (· = root) root K).tree
        ((m.level (· = root) root K).tree.length + 1) (m.entered e) = some w ∧
      m.IsWalk root w ∧ m.last root w = m.entered e ∧ m.IsDist root (m.entered e) w.length := by
  obtain ⟨hne, d, hd, hle⟩ := mem_tree_iff.mp (mem_map_of_mem he)
  have hpos : 0 < d := pos_of_ne_zero fun h => hne (by
    rw [h] at hd
    exact (m.joins_zero.mp hd.1).symm)
  have hmem := (mem_next_iff hpos).mpr hd
  have hlen : d ≤ (m.level (· = root) root K).tree.length :=
    (m.le_length_tree _ root d (ne_nil_of_mem hmem)).trans (m.tree_mono _ hle).length_le
  obtain ⟨w, hw, hwalk, hlast, rfl⟩ := m.trace_of_mem_next _ (by simp) hle
    (Nat.lt_succ_of_le hlen) hmem
  exact ⟨w, hw, hwalk, hlast, hd⟩

theorem bfsPaths_spec (g : ReadGraph E) (p : PathExpandParams) (root : VertexRecord) :
    ∃ K, EndsAt (g.moves p.labels p.dir) root p.hopUpper K ∧
      (bfsPaths g p root).map Path.endNode = (if p.hopLower ≤ K then
        ((g.moves p.labels p.dir).level (· = root) root K).tree.map
          (g.moves p.labels p.dir).entered else []) ∧
      ∀ x ∈ bfsPaths g p root, x.start = root ∧ (g.moves p.labels p.dir).IsWalk x.start x.hops ∧
        (g.moves p.labels p.dir).IsDist x.start x.endNode x.length := by
  obtain ⟨K, hloop, hends⟩ := bfsLoop_eq (p := p) p.hopUpper.toNat 0 (by omega)
    (fun h => absurd h (lt_irrefl 0)) (fun j hj => absurd hj (Nat.not_lt_zero j))
  have hinit : (g.moves p.labels p.dir).level (· = root) root 0 = ⟨[], [root]⟩ := rfl
  rw [hinit] at hloop
  refine ⟨K, hends, ?_⟩
  unfold bfsPaths
  rw [hloop]
  dsimp only
  split_ifs
  · constructor
    · rw [map_filterMap, ← filterMap_eq_map]
      refine filterMap_congr fun e he => ?_
      obtain ⟨w, hw, -, hlast, -⟩ := trace_tree he
      have htrace : (g.moves p.labels p.dir).trace root _ _ e.2.vertex = some w := hw
      rw [htrace, map_some, map_some, Path.endNode_eq_last g p.labels p.dir]
      exact congrArg some hlast
    · intro x hx
      obtain ⟨e, he, hxe⟩ := mem_filterMap.mp hx
      obtain ⟨w, hw, hwalk, hlast, hdist⟩ := trace_tree he
      have htrace : (g.moves p.labels p.dir).trace root _ _ e.2.vertex = some w := hw
      rw [htrace] at hxe
      cases hxe
      refine ⟨rfl, hwalk, ?_⟩
      rw [Path.endNode_eq_last g p.labels p.dir, hlast]
      exact hdist
  · exact ⟨rfl, fun x hx => absurd hx not_mem_nil⟩

end

/-- The bounds leave out the root, and a lower bound above 1 leaves out all vertices: none is one
hop short of it. -/
def BoundsFit (g : ReadGraph E) (p : PathExpandParams) (v : VertexRecord) : Prop :=
  ¬ InBounds p 0 ∧ (2 ≤ p.hopLower → p.hopLower < p.hopUpper →
    ∀ u, ¬ (g.moves p.labels p.dir).IsDist v u (p.hopLower - 1).toNat)

theorem shortestFrom_bfsPaths_iff (g : ReadGraph E) (p : PathExpandParams) (v : VertexRecord) :
    ShortestFrom (g.moves p.labels p.dir) v (fun _ d => InBounds p d) (bfsPaths g p v) ↔
      BoundsFit g p v := by
  obtain ⟨K, hends, hmap, hpaths⟩ := bfsPaths_spec g p v
  -- the ends are the vertices up to depth `K`, if this depth is not below the lower bound
  have hmem : ∀ u, u ∈ (bfsPaths g p v).map Path.endNode ↔
      p.hopLower ≤ K ∧ u ≠ v ∧ ∃ d, (g.moves p.labels p.dir).IsDist v u d ∧ d ≤ K := by
    intro u
    rw [hmap]
    split_ifs with hlow
    · rw [mem_tree_iff]
      exact ⟨fun h => ⟨hlow, h⟩, And.right⟩
    · exact ⟨fun h => absurd h not_mem_nil, fun h => absurd h.1 hlow⟩
  have hnodup : ((bfsPaths g p v).map Path.endNode).Nodup := by
    rw [hmap]
    split_ifs
    · exact Moves.nodup_tree _ _ _ _
    · exact nodup_nil
  unfold ShortestFrom Enumerates BoundsFit InBounds
  constructor
  · rintro ⟨⟨-, h⟩, -⟩
    refine ⟨fun hzero => ?_, fun htwo hlt u hu => ?_⟩
    · have hroot := (h v).mpr ⟨0, (g.moves p.labels p.dir).isDist_self v, hzero⟩
      exact ((hmem v).mp hroot).2.1 rfl
    · have hle : (p.hopLower - 1).toNat ≤ K := hends.dist_le hu (by omega)
      have hK : p.hopLower ≤ K := by
        rcases hends.stops with hstop | hempty
        · omega
        · by_contra hlow
          have hKeq : K = (p.hopLower - 1).toNat := by omega
          have := (mem_next_iff (by omega)).mpr hu
          rw [← hKeq, hempty] at this
          cases this
      obtain ⟨d, hd, hbounds⟩ := (h u).mp ((hmem u).mpr ⟨hK, hu.ne _ (by omega), _, hu, hle⟩)
      have := hd.unique _ hu
      omega
  · rintro ⟨hzero, htwo⟩
    refine ⟨⟨hnodup, fun u => ?_⟩, hpaths⟩
    rw [hmem]
    constructor
    · rintro ⟨hlow, hne, d, hd, hle⟩
      have hpos : 0 < d := pos_of_ne_zero fun hz => hne (by
        rw [hz] at hd
        exact ((Moves.joins_zero _).mp hd.1).symm)
      have hup := hends.lt_upper (by omega)
      refine ⟨d, hd, ?_, by omega⟩
      by_contra hlt
      obtain ⟨x, hx⟩ := hends.exists_dist (d := (p.hopLower - 1).toNat) (by omega)
      exact htwo (by omega) (by omega) x hx
    · rintro ⟨d, hd, hlow, hup⟩
      have hpos : 0 < d := pos_of_ne_zero fun hz => hzero (by subst hz; exact ⟨hlow, hup⟩)
      have hle := hends.dist_le hd hup
      exact ⟨by omega, hd.ne _ hpos, d, hd, hle⟩

/-- Any-shortest expansion returns one shortest path for every vertex whose distance is between the
bounds exactly where the bounds fit. -/
theorem anyShortest_iff (g : ReadGraph E) (p : PathExpandParams) (col : VertexColumn) :
    (∃ r, edgeExpandP g p col .anyShortest = some r ∧
      ShortestEach (g.moves p.labels p.dir) col (fun _ d => InBounds p d) r) ↔
      ∀ v ∈ col.vertices, BoundsFit g p v := by
  rw [exists_edgeExpandP rfl, pathExpandPAnyShortest, shortestEach_rowPaths]
  exact forall₂_congr fun v _ => shortestFrom_bfsPaths_iff g p v

def chain : ReadGraph ℕ :=
  .ofEdges id (· + 1) (fun τ => if τ = ⟨0, 0, 0⟩ then [0, 1] else []) nodup_pair

/-- Paths of at least `lower` and at most two hops along the chain. -/
def upToTwo (lower : ℤ) : PathExpandParams := ⟨[⟨0, 0, 0⟩], .out, lower, 3, nodup_triplet⟩

end Neug.Execution
