import Neug.Execution.PathSearch
import Neug.Execution.WalkExpansion

/-! What the depth-first searches list: the walks that pass the test of the search and have a
length that its two comparisons let through. -/
namespace Neug.Execution
open Neug.Lib List Option

variable {E : Type} {g : ReadGraph E} {p : PathExpandParams} {col : VertexColumn}
  {labels : List LabelTriplet} {dir : Direction} {a : VertexRecord} {w : List (Hop E)}

theorem mem_dfsHops {u : VertexRecord} {h : Hop E} :
    h ∈ g.dfsHops labels dir u ↔ dir ≠ .inn ∧ h ∈ g.hopsFrom labels dir u := by
  unfold ReadGraph.dfsHops ReadGraph.hopsFrom
  cases dir <;> simp

theorem nodup_dfsHops (hl : labels.Nodup) (u : VertexRecord) : (g.dfsHops labels dir u).Nodup := by
  have hnodup := g.nodup_hopsFrom hl dir u
  unfold ReadGraph.dfsHops
  unfold ReadGraph.hopsFrom at hnodup
  cases dir <;> simp_all

/-- The searches walk like the other expansions, but not against the edges alone. -/
theorem isWalk_dfsMoves : (g.dfsMoves labels dir).IsWalk a w ↔
    (g.moves labels dir).IsWalk a w ∧ (dir = .inn → w = []) := by
  induction w with
  | nil => simp
  | cons h w ih =>
    rw [Moves.isWalk_cons, ih]
    have hmem := @mem_dfsHops E g labels dir ((g.moves labels dir).last a w) h
    constructor
    · rintro ⟨⟨hwalk, -⟩, hh⟩
      obtain ⟨hdir, hh⟩ := hmem.mp hh
      exact ⟨⟨hwalk, hh⟩, fun heq => absurd heq hdir⟩
    · rintro ⟨⟨hwalk, hh⟩, hdir⟩
      have hne : dir ≠ .inn := fun heq => cons_ne_nil _ _ (hdir heq)
      exact ⟨⟨hwalk, fun heq => absurd heq hne⟩, hmem.mpr ⟨hne, hh⟩⟩

theorem guarded_newVertex : (g.dfsMoves labels dir).Guarded (newVertex a) a w ↔
      (g.dfsMoves labels dir).IsWalk a w ∧ (a :: w.map Hop.vertex).Nodup := by
  induction w with
  | nil => simp [Moves.Guarded]
  | cons h w ih =>
    have hperm : (a :: h.vertex :: w.map Hop.vertex).Perm (h.vertex :: a :: w.map Hop.vertex) :=
      .swap _ _ _
    rw [Moves.Guarded, Moves.isWalk_cons, newVertex, decide_eq_true_eq, map_cons,
      hperm.nodup_iff, nodup_cons]
    tauto

theorem guarded_newCrossing : (g.dfsMoves labels dir).Guarded (newCrossing a) a w ↔
      (g.dfsMoves labels dir).IsWalk a w ∧ (crossingsOf a w).Nodup := by
  induction w with
  | nil => simp [Moves.Guarded, crossingsOf]
  | cons h w ih =>
    rw [Moves.Guarded, Moves.isWalk_cons, newCrossing, decide_eq_true_eq, crossingsOf,
      nodup_cons]
    tauto

theorem crossingsOf_subset (h : (g.moves labels dir).IsWalk a w) :
    crossingsOf a w ⊆ g.crossings labels := by
  induction w with
  | nil => exact nil_subset _
  | cons hop w ih =>
    refine cons_subset.mpr ⟨?_, ih h.1⟩
    rw [Path.endNode_eq_last g labels dir]
    exact g.crossing_mem h.2

theorem length_crossingsOf (a : VertexRecord) (w : List (Hop E)) :
    (crossingsOf a w).length = w.length := by
  induction w with
  | nil => rfl
  | cons h w ih => rw [crossingsOf, length_cons, length_cons, ih]

theorem map_head_crossingsOf (a : VertexRecord) (w : List (Hop E)) :
    (crossingsOf a w).map Crossing.head = w.map Hop.vertex := by
  induction w with
  | nil => rfl
  | cons h w ih => rw [crossingsOf, map_cons, map_cons, ih]

theorem length_le_crossings (hwalk : (g.dfsMoves labels dir).IsWalk a w)
    (hnodup : (crossingsOf a w).Nodup) : w.length ≤ (g.crossings labels).length := by
  rw [← length_crossingsOf a w]
  exact (hnodup.subperm (crossingsOf_subset (isWalk_dfsMoves.mp hwalk).1)).length_le

theorem nodup_crossingsOf (h : (a :: w.map Hop.vertex).Nodup) : (crossingsOf a w).Nodup := by
  refine List.Nodup.of_map Crossing.head ?_
  rw [map_head_crossingsOf]
  exact (nodup_cons.mp h).2

/-- A path with `k` hops, that is `k + 1` vertices, passes the comparison with the lower bound, and
no shorter one was stopped by the comparison with the upper bound. -/
def Counted (p : PathExpandParams) (k : ℕ) : Prop :=
  toSize p.hopLower ≤ k + 1 ∧ ∀ n < k, n + 1 ≠ toSize p.hopUpper

variable {keeps : VertexRecord → List (Hop E) → Hop E → Bool} {x : Path E × ℕ}

theorem mem_dfsExpand (hbound : ∀ a w, (g.dfsMoves p.labels p.dir).Guarded (keeps a) a w →
      w.length ≤ (g.crossings p.labels).length) :
    x ∈ dfsExpand keeps g p col ↔ col.vertices[x.2]? = some x.1.start ∧
      (g.dfsMoves p.labels p.dir).Guarded (keeps x.1.start) x.1.start x.1.hops ∧
      Counted p x.1.length := by
  unfold dfsExpand
  rw [mem_rowPaths_mk, Moves.mem_dfs _ (fun v hv => Nat.lt_succ_of_le (hbound _ v hv)) (by simp)
    (by exact trivial)]
  simp only [decide_eq_true_eq, decide_eq_false_iff_not]
  refine and_congr_right fun _ => ⟨?_, ?_⟩
  · rintro ⟨-, hguard, hlow, hup⟩
    refine ⟨hguard, hlow, fun n hn => ?_⟩
    -- the path was `n` hops long before
    have hlen : (x.1.hops.drop (x.1.hops.length - n)).length = n := by
      rw [length_drop]
      exact Nat.sub_sub_self (le_of_lt hn)
    have hstop := hup _ nil_suffix (drop_suffix _ _) fun heq => by
      rw [heq] at hlen
      exact absurd hlen (ne_of_gt hn)
    rwa [hlen] at hstop
  · rintro ⟨hguard, hlow, hup⟩
    refine ⟨nil_suffix, hguard, hlow, fun v _ hv hne => hup v.length ?_⟩
    exact lt_of_le_of_ne hv.length_le fun hlen => hne (hv.eq_of_length hlen)

def IsRowWalk (g : ReadGraph E) (p : PathExpandParams) (col : VertexColumn) (x : Path E × ℕ) :
    Prop :=
  col.vertices[x.2]? = some x.1.start ∧ x.1.IsWalk g p.labels p.dir

def Backwards (p : PathExpandParams) (x : Path E × ℕ) : Prop := p.dir = .inn ∧ 0 < x.1.length

theorem isExpansion_iff : IsExpansion g p col x ↔ IsRowWalk g p col x ∧ InBounds p x.1.length := by
  unfold IsExpansion IsRowWalk InBounds
  tauto

theorem dfs_walk_iff : col.vertices[x.2]? = some x.1.start ∧
        (g.dfsMoves p.labels p.dir).IsWalk x.1.start x.1.hops ↔
      IsRowWalk g p col x ∧ ¬ Backwards p x := by
  have hlen : 0 < x.1.length ↔ x.1.hops ≠ [] := length_pos_iff
  rw [isWalk_dfsMoves]
  unfold IsRowWalk Backwards Path.IsWalk
  tauto

/-- A search that lists the walks with `P` enumerates the walks between the bounds with `Q`
exactly where the two agree on every walk. -/
theorem enumerates_dfsExpand_iff (P Q : Path E → Prop)
    (hP : ∀ a w, (g.dfsMoves p.labels p.dir).Guarded (keeps a) a w ↔
      (g.dfsMoves p.labels p.dir).IsWalk a w ∧ P ⟨a, w⟩)
    (hbound : ∀ a w, (g.dfsMoves p.labels p.dir).Guarded (keeps a) a w →
      w.length ≤ (g.crossings p.labels).length) :
    Enumerates (dfsExpand keeps g p col) (fun x => IsExpansion g p col x ∧ Q x.1) ↔
      ∀ x, IsRowWalk g p col x →
        (¬ Backwards p x ∧ P x.1 ∧ Counted p x.1.length ↔ InBounds p x.1.length ∧ Q x.1) := by
  have hmem : ∀ x, x ∈ dfsExpand keeps g p col ↔
      IsRowWalk g p col x ∧ ¬ Backwards p x ∧ P x.1 ∧ Counted p x.1.length := by
    intro x
    rw [mem_dfsExpand hbound, hP, ← and_assoc, ← and_assoc, dfs_walk_iff, and_assoc, and_assoc]
  constructor
  · rintro ⟨-, h⟩ x hx
    have hiff := h x
    dsimp only at hiff
    rw [hmem, isExpansion_iff] at hiff
    tauto
  · intro h
    refine ⟨nodup_rowPaths_mk fun _ => Moves.nodup_dfs _ (nodup_dfsHops p.nodup) _ _,
      fun x => ?_⟩
    dsimp only
    rw [hmem, isExpansion_iff]
    have hiff := h x
    tauto

/-- The comparisons of the number of vertices decide differently from the bounds on the number of
hops. -/
def Misjudged (p : PathExpandParams) (k : ℕ) : Prop := ¬ (Counted p k ↔ InBounds p k)

/-- On the walks without a repeated vertex the search goes wrong at no length, and an expansion
against the edges has nothing to find. -/
def SimpleFit (g : ReadGraph E) (p : PathExpandParams) (col : VertexColumn) : Prop :=
  ∀ x, IsRowWalk g p col x → x.1.nodes.Nodup →
    (Backwards p x → ¬ InBounds p x.1.length) ∧ (¬ Backwards p x → ¬ Misjudged p x.1.length)

theorem nodup_nodes {x : Path E} : x.nodes.Nodup ↔ (x.start :: x.hops.map Hop.vertex).Nodup := by
  unfold Path.nodes
  rw [nodup_reverse]
  exact (perm_append_singleton _ _).nodup_iff

def oneHop : PathExpandParams := ⟨[⟨0, 0, 0⟩], .out, 1, 2, nodup_triplet⟩

/-- The edge of a hop from `u`, as `relationships` gives it. -/
def edgeOf (u : VertexRecord) (h : Hop E) : LabelTriplet × E :=
  if h.dir = .out then (⟨u.label, h.vertex.label, h.edgeLabel⟩, h.payload)
  else (⟨h.vertex.label, u.label, h.edgeLabel⟩, h.payload)

def edgesOf (start : VertexRecord) : List (Hop E) → List (LabelTriplet × E)
  | [] => []
  | h :: w => edgeOf (Path.endNode ⟨start, w⟩) h :: edgesOf start w

def IsTrail (x : Path E) : Prop := (edgesOf x.start x.hops).Nodup

/-- The path goes between two vertices over an edge label at most once in each direction. -/
def CrossesOnce (x : Path E) : Prop := (crossingsOf x.start x.hops).Nodup

/-- An expansion against the edges has nothing to find. Otherwise no trail between the bounds takes
two parallel edges the same way, no walk that the search lists takes an edge forth and back, and the
search goes wrong at no length. -/
def TrailFit (g : ReadGraph E) (p : PathExpandParams) (col : VertexColumn) : Prop :=
  ∀ x, IsRowWalk g p col x →
    (Backwards p x → IsTrail x.1 → ¬ InBounds p x.1.length) ∧
    (¬ Backwards p x →
      (IsTrail x.1 → InBounds p x.1.length → CrossesOnce x.1) ∧
      (CrossesOnce x.1 → Counted p x.1.length → IsTrail x.1) ∧
      (IsTrail x.1 → CrossesOnce x.1 → ¬ Misjudged p x.1.length))

/-- The search for trails lists every path that the search for simple paths does. -/
theorem simple_subset_trail (g : ReadGraph E) (p : PathExpandParams) (col : VertexColumn) :
    pathExpandPSimple g p col ⊆ pathExpandPTrail g p col := by
  intro x hx
  rw [pathExpandPSimple, mem_dfsExpand, guarded_newVertex] at hx
  · obtain ⟨hrow, ⟨hwalk, hnodup⟩, hcount⟩ := hx
    rw [pathExpandPTrail, mem_dfsExpand, guarded_newCrossing]
    · exact ⟨hrow, ⟨hwalk, nodup_crossingsOf hnodup⟩, hcount⟩
    · exact fun a w h => (guarded_newCrossing.mp h).elim length_le_crossings
  · intro a w h
    obtain ⟨hwalk, hnodup⟩ := guarded_newVertex.mp h
    exact length_le_crossings hwalk (nodup_crossingsOf hnodup)

def upToTwoHops : PathExpandParams := ⟨[⟨0, 0, 0⟩], .both, 0, 3, nodup_triplet⟩

end Neug.Execution
