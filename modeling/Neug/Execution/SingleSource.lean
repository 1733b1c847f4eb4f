import Neug.Execution.WalkExpansion

/-! `single_source_shortest_path_impl`. The parents mark the vertices that were reached, and the
source has none at the start, so it is reached again by its shortest cycle. -/
namespace Neug.Execution
open Neug.Lib List Option

variable {E : Type}

section

variable (m : Moves VertexRecord (Hop E)) (pred : VertexRecord → Bool) (lower upper : ℤ)

/-- The path that ends in a vertex: `depth` parents, and for every two vertices the first edge that
`get_edges` has between them. -/
def pathTo (tree : List (VertexRecord × Hop E)) : ℕ → VertexRecord → Option (Path E)
  | 0, x => some ⟨x, []⟩
  | depth + 1, x => (m.entry tree x).bind fun e =>
      ((m.next e.1).find? fun h => m.target h = x).bind fun h =>
        (pathTo tree depth e.1).map fun path => path.expand h

/-- The loop of `sssp_dir` and `sssp_both_dir`. A parent does not change any more, so the paths of a
level can be read before its edges are scanned. The rounds that are left bound `upper - depth`. -/
def ssspLoop : ℕ → ℕ → Level VertexRecord (Hop E) → List (Path E)
  | 0, _, _ => []
  | rounds + 1, depth, l =>
    if depth < upper ∧ l.next ≠ [] then
      (if lower ≤ depth then (l.next.filter pred).filterMap (pathTo m l.tree depth) else []) ++
        ssspLoop rounds (depth + 1)
          (if lower ≤ depth ∧ depth = upper - 1 then ⟨l.tree, []⟩
            else m.scan (fun _ => false) l.next ⟨l.tree, []⟩)
    else []

/-- `single_source_shortest_path_impl` for a column of vertices with label `vLabel`. The rows of the
destination column are the ends of the paths. -/
def singleSourceShortestPath (g : ReadGraph E) (vLabel eLabel : ℕ) (vids : List ℕ)
    (dir : Direction) : List (Path E × ℕ) :=
  rowPaths (.single vLabel vids) fun v =>
    ssspLoop (g.moves [⟨vLabel, vLabel, eLabel⟩] dir) pred lower upper upper.toNat 0 ⟨[], [v]⟩

end

section

variable {m : Moves VertexRecord (Hop E)} {pred : VertexRecord → Bool} {lower upper : ℤ}
  {s u : VertexRecord} {k : ℕ}

def ssspLevel (m : Moves VertexRecord (Hop E)) (s : VertexRecord) (k : ℕ) :
    Level VertexRecord (Hop E) := m.level (fun _ => false) s k

/-- What the loop emits at depth `k`. -/
def emitted (m : Moves VertexRecord (Hop E)) (pred : VertexRecord → Bool) (lower : ℤ)
    (s : VertexRecord) (k : ℕ) : List (Path E) :=
  if lower ≤ k then
    ((ssspLevel m s k).next.filter pred).filterMap (pathTo m (ssspLevel m s k).tree k)
  else []

theorem emitted_of_nil (h : (ssspLevel m s k).next = []) : emitted m pred lower s k = [] := by
  unfold emitted
  rw [h]
  split_ifs <;> rfl

theorem ssspLevel_nil (h : (ssspLevel m s k).next = []) {j : ℕ} (hj : k ≤ j) :
    (ssspLevel m s j).next = [] := by
  induction j, hj using Nat.le_induction with
  | base => exact h
  | succ j _ ih =>
    have hscan : ssspLevel m s (j + 1) = m.scan (fun _ => false) (ssspLevel m s j).next
      ⟨(ssspLevel m s j).tree, []⟩ := rfl
    rw [hscan, ih]
    rfl

theorem ssspLoop_eq (rounds depth : ℕ) (h : upper ≤ depth + rounds) :
    ssspLoop m pred lower upper rounds depth (ssspLevel m s depth) =
      (range' depth (upper.toNat - depth)).flatMap (emitted m pred lower s) := by
  induction rounds generalizing depth with
  | zero =>
    rw [show upper.toNat - depth = 0 by omega]
    rfl
  | succ rounds ih =>
    rw [ssspLoop]
    by_cases hup : depth < upper
    · obtain ⟨n, hn⟩ : ∃ n, upper.toNat - depth = n + 1 := ⟨upper.toNat - depth - 1, by omega⟩
      rw [hn, range'_succ, flatMap_cons]
      by_cases hnil : (ssspLevel m s depth).next = []
      · rw [if_neg (by simp [hnil]), emitted_of_nil hnil]
        refine (flatMap_eq_nil_iff.mpr fun j hj => emitted_of_nil ?_).symm
        exact ssspLevel_nil hnil (by have := mem_range'_1.mp hj; omega)
      · rw [if_pos ⟨hup, hnil⟩]
        congr 1
        split_ifs with hlast
        · -- the next round ends at the upper bound
          have hzero : n = 0 := by omega
          rw [hzero]
          cases rounds with
          | zero => rfl
          | succ rounds => rw [ssspLoop, if_neg (by push_cast; omega)]; rfl
        · rw [show n = upper.toNat - (depth + 1) by omega]
          exact ih (depth + 1) (by push_cast; omega)
    · rw [if_neg fun hand => hup hand.1, show upper.toNat - depth = 0 by omega]
      rfl

/-- The lengths at which the search emits a vertex: its distance, and for the source the length of
its shortest cycle as well. -/
def EmittedAt (m : Moves VertexRecord (Hop E)) (s u : VertexRecord) (k : ℕ) : Prop :=
  if u = s then k = 0 ∨ m.IsHopDist s s k else m.IsDist s u k

theorem mem_ssspLevel : u ∈ (ssspLevel m s k).next ↔ EmittedAt m s u k := by
  unfold EmittedAt ssspLevel
  cases k with
  | zero =>
    rw [Moves.level, mem_singleton]
    split_ifs with heq
    · simp [heq]
    · refine ⟨fun h => absurd h heq, fun h => ?_⟩
      exact (m.joins_zero.mp h.1).symm
  | succ k =>
    rw [m.mem_next _ (fun x hx => absurd hx Bool.false_ne_true) k u]
    split_ifs with heq
    · rw [heq]
      simp
    · rw [m.isHopDist_iff heq]
      simp

theorem pathTo_of_mem {K : ℕ} (hK : k ≤ K) (hu : u ∈ (ssspLevel m s k).next) :
    ∃ path, pathTo m (ssspLevel m s K).tree k u = some path ∧ path.start = s ∧
      m.IsWalk s path.hops ∧ m.last s path.hops = u ∧ path.length = k := by
  induction k generalizing u with
  | zero =>
    obtain rfl : u = s := mem_singleton.mp hu
    exact ⟨⟨u, []⟩, rfl, rfl, m.isWalk_nil u, rfl, rfl⟩
  | succ k ih =>
    obtain ⟨e, he, hparent, hhop, htarget⟩ := m.entry_of_mem_next _ hK hu
    obtain ⟨path, hpath, hstart, hwalk, hlast, hlen⟩ := ih (by omega) hparent
    obtain ⟨h, hh⟩ : ∃ h, (m.next e.1).find? (fun h => m.target h = u) = some h :=
      isSome_iff_exists.mp (find?_isSome.mpr ⟨e.2, hhop, by simp [htarget]⟩)
    have hu' : m.target h = u := by simpa using find?_some hh
    refine ⟨path.expand h, ?_, hstart, ⟨hwalk, ?_⟩, hu', congrArg (· + 1) hlen⟩
    · have he' : m.entry (ssspLevel m s K).tree u = some e := he
      rw [pathTo, he', bind_some, hh, bind_some, hpath, map_some]
    · rw [hlast]
      exact mem_of_find?_eq_some hh

theorem emitted_map : (emitted m pred lower s k).map (fun x => (m.last s x.hops, x.length)) =
    if lower ≤ k then ((ssspLevel m s k).next.filter pred).map fun u => (u, k) else [] := by
  unfold emitted
  split_ifs
  · rw [map_filterMap, ← filterMap_eq_map]
    refine filterMap_congr fun u hu => ?_
    obtain ⟨path, hpath, -, -, hlast, hlen⟩ := pathTo_of_mem le_rfl (mem_of_mem_filter hu)
    rw [hpath, map_some, hlast, hlen]
    rfl
  · rfl

theorem emitted_walk {x : Path E} (hx : x ∈ emitted m pred lower s k) :
    x.start = s ∧ m.IsWalk s x.hops := by
  unfold emitted at hx
  split_ifs at hx
  · obtain ⟨u, hu, hux⟩ := mem_filterMap.mp hx
    obtain ⟨path, hpath, hstart, hwalk, -⟩ := pathTo_of_mem le_rfl (mem_of_mem_filter hu)
    obtain rfl := some.inj (hpath.symm.trans hux)
    exact ⟨hstart, hwalk⟩
  · cases hx

theorem ssspLoop_zero : ssspLoop m pred lower upper upper.toNat 0 ⟨[], [s]⟩ =
    (range upper.toNat).flatMap (emitted m pred lower s) := by
  rw [range_eq_range']
  exact ssspLoop_eq upper.toNat 0 (by omega)

/-- From one source: every vertex at the lengths at which it is due, each once. -/
theorem enumerates_ssspLoop (m : Moves VertexRecord (Hop E)) (pred : VertexRecord → Bool)
    (lower upper : ℤ) (s : VertexRecord) :
    Enumerates ((ssspLoop m pred lower upper upper.toNat 0 ⟨[], [s]⟩).map
        fun x => (m.last s x.hops, x.length))
      fun y : VertexRecord × ℕ =>
        pred y.1 = true ∧ lower ≤ y.2 ∧ y.2 < upper ∧ EmittedAt m s y.1 y.2 := by
  rw [ssspLoop_zero, map_flatMap]
  simp only [emitted_map]
  constructor
  · refine nodup_flatMap.mpr ⟨fun k _ => ?_, ?_⟩
    · split_ifs
      · exact ((m.nodup_next _ s k).filter _).map fun _ _ h => (Prod.mk.inj h).1
      · exact nodup_nil
    · refine nodup_range.imp fun {k k'} hne => ?_
      rintro y hy hy'
      dsimp only at hy hy'
      split_ifs at hy hy'
      · obtain ⟨u, -, rfl⟩ := mem_map.mp hy
        obtain ⟨u', -, heq⟩ := mem_map.mp hy'
        exact hne (Prod.mk.inj heq).2.symm
      all_goals simp at hy hy'
  · rintro ⟨u, k⟩
    rw [mem_flatMap]
    constructor
    · rintro ⟨k', hk', hy⟩
      split_ifs at hy with hlow
      · obtain ⟨u', hu', heq⟩ := mem_map.mp hy
        cases heq
        obtain ⟨hmem, hpred⟩ := mem_filter.mp hu'
        exact ⟨hpred, hlow, by have := mem_range.mp hk'; omega, mem_ssspLevel.mp hmem⟩
      · cases hy
    · rintro ⟨hpred, hlow, hup, hat⟩
      refine ⟨k, mem_range.mpr (by omega), ?_⟩
      rw [if_pos hlow]
      exact mem_map.mpr ⟨u, mem_filter.mpr ⟨mem_ssspLevel.mpr hat, hpred⟩, rfl⟩

end

/-- One row for every vertex other than the source that satisfies the predicate and has its distance
between the bounds, and for the source one at length 0 and one at the length of its shortest cycle,
as far as they are between the bounds. The paths have these lengths. -/
theorem singleSource_rows (g : ReadGraph E) (vLabel eLabel : ℕ) (vids : List ℕ) (dir : Direction)
    (pred : VertexRecord → Bool) (lower upper : ℤ) :
    Enumerates ((singleSourceShortestPath pred lower upper g vLabel eLabel vids dir).map
        fun x => ((x.1.endNode, x.1.length), x.2))
      (fun y : (VertexRecord × ℕ) × ℕ => ∃ v, vids[y.2]? = some v ∧
        pred y.1.1 = true ∧ lower ≤ y.1.2 ∧ y.1.2 < upper ∧
        EmittedAt (g.moves [⟨vLabel, vLabel, eLabel⟩] dir) ⟨vLabel, v⟩ y.1.1 y.1.2) ∧
    ∀ x ∈ singleSourceShortestPath pred lower upper g vLabel eLabel vids dir,
      vids[x.2]? = some x.1.start.vid ∧ x.1.start.label = vLabel ∧
        x.1.IsWalk g [⟨vLabel, vLabel, eLabel⟩] dir := by
  have hwalk : ∀ v, ∀ x ∈ ssspLoop (g.moves [⟨vLabel, vLabel, eLabel⟩] dir) pred lower upper
      upper.toNat 0 ⟨[], [v]⟩,
      x.start = v ∧ (g.moves [⟨vLabel, vLabel, eLabel⟩] dir).IsWalk v x.hops := by
    intro v x hx
    rw [ssspLoop_zero, mem_flatMap] at hx
    obtain ⟨k, -, hx⟩ := hx
    exact emitted_walk hx
  have hfrom : ∀ v, Enumerates ((ssspLoop (g.moves [⟨vLabel, vLabel, eLabel⟩] dir) pred lower upper
      upper.toNat 0 ⟨[], [v]⟩).map fun x => (x.endNode, x.length))
      fun y : VertexRecord × ℕ => pred y.1 = true ∧ lower ≤ y.2 ∧ y.2 < upper ∧
        EmittedAt (g.moves [⟨vLabel, vLabel, eLabel⟩] dir) v y.1 y.2 := by
    intro v
    rw [map_congr_left fun x hx => by
      rw [Path.endNode_eq_last g [⟨vLabel, vLabel, eLabel⟩] dir, (hwalk v x hx).1]]
    exact enumerates_ssspLoop _ pred lower upper v
  have hrow : ∀ (i : ℕ) (v : VertexRecord),
      (VertexColumn.single vLabel vids).vertices[i]? = some v ↔
        vids[i]? = some v.vid ∧ v.label = vLabel := by
    rintro i ⟨label, vid⟩
    rw [VertexColumn.vertices, getElem?_map, map_eq_some_iff]
    constructor
    · rintro ⟨x, hx, heq⟩
      obtain ⟨rfl, rfl⟩ := VertexRecord.mk.inj heq
      exact ⟨hx, rfl⟩
    · rintro ⟨hx, rfl⟩
      exact ⟨vid, hx, rfl⟩
  constructor
  · obtain ⟨hnodup, hmem⟩ := (enumerates_rowPaths (fun x => (x.endNode, x.length)) fun v y =>
      pred y.1 = true ∧ lower ≤ y.2 ∧ y.2 < upper ∧
        EmittedAt (g.moves [⟨vLabel, vLabel, eLabel⟩] dir) v y.1 y.2).mpr
      fun v (_ : v ∈ (VertexColumn.single vLabel vids).vertices) => hfrom v
    refine ⟨hnodup, fun y => (hmem y).trans ⟨?_, ?_⟩⟩
    · rintro ⟨v, hv, hat⟩
      obtain ⟨hvid, rfl⟩ := (hrow _ v).mp hv
      exact ⟨v.vid, hvid, hat⟩
    · rintro ⟨v, hv, hat⟩
      exact ⟨⟨vLabel, v⟩, (hrow _ _).mpr ⟨hv, rfl⟩, hat⟩
  · intro x hx
    obtain ⟨v, hv, hpath⟩ := mem_rowPaths.mp hx
    obtain ⟨hstart, hw⟩ := hwalk v _ hpath
    rw [← hstart] at hv hw
    exact ⟨((hrow _ _).mp hv).1, ((hrow _ _).mp hv).2, hw⟩

/-- What the search would emit if it had marked the source: one row for every vertex at its
distance. -/
def OneRowEach (g : ReadGraph E) (vLabel eLabel : ℕ) (vids : List ℕ) (dir : Direction)
    (pred : VertexRecord → Bool) (lower upper : ℤ) : Prop :=
  Enumerates ((singleSourceShortestPath pred lower upper g vLabel eLabel vids dir).map
      fun x => ((x.1.endNode, x.1.length), x.2))
    fun y : (VertexRecord × ℕ) × ℕ => ∃ v, vids[y.2]? = some v ∧
      pred y.1.1 = true ∧ lower ≤ y.1.2 ∧ y.1.2 < upper ∧
      (g.moves [⟨vLabel, vLabel, eLabel⟩] dir).IsDist ⟨vLabel, v⟩ y.1.1 y.1.2

/-- One edge, in both directions, and paths of one or two hops: the source is emitted as well, with
the path over the edge and back. -/
theorem singleSource_returns : ¬ OneRowEach oneEdge 0 0 [0] .both (fun _ => true) 1 3 := by
  rintro ⟨-, hmem⟩
  obtain ⟨v, hv, -, hlow, -, hdist⟩ := (hmem ((⟨0, 0⟩, 2), 0)).mp (by decide)
  obtain rfl : 0 = v := some.inj hv
  have := hdist.unique _ (Moves.isDist_self _ _)
  cases this

end Neug.Execution
