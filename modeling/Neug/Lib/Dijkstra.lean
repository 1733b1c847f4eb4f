import Neug.Lib.Loop
import Neug.Lib.PriorityQueue
import Neug.Lib.Walks

/-! Dijkstra's search with a priority queue in which outdated entries stay until they are taken. The
bound that is recorded for a node may exceed the weight of the path that was found by a slack. -/
namespace Neug.Lib
open List Option

variable {α β π : Type}

def Moves.walkCost (m : Moves α β) (cost : α → β → ℚ) (a : α) : List β → ℚ
  | [] => 0
  | b :: w => walkCost m cost a w + cost (m.last a w) b

namespace Moves

variable (m : Moves α β) {cost : α → β → ℚ} {a x : α} {w w' : List β}

def nodes (a : α) : List β → List α
  | [] => [a]
  | b :: w => m.target b :: nodes a w

theorem nodes_eq_cons (a : α) (w : List β) : m.nodes a w = m.last a w :: (m.nodes a w).tail := by
  cases w <;> rfl

theorem last_mem_nodes (a : α) (w : List β) : m.last a w ∈ m.nodes a w := by
  rw [nodes_eq_cons]
  exact mem_cons_self ..

theorem start_mem_nodes (a : α) (w : List β) : a ∈ m.nodes a w := by
  induction w with
  | nil => exact mem_singleton_self a
  | cons b w ih => exact mem_cons_of_mem _ ih

theorem IsWalk.of_suffix (hw : m.IsWalk a w) (h : w' <:+ w) : m.IsWalk a w' := by
  obtain ⟨u, rfl⟩ := h
  induction u with
  | nil => exact hw
  | cons b u ih => exact ih hw.1

theorem nodes_suffix (a : α) (h : w' <:+ w) : m.nodes a w' <:+ m.nodes a w := by
  obtain ⟨u, rfl⟩ := h
  induction u with
  | nil => exact suffix_refl _
  | cons b u ih => exact ih.trans (suffix_cons _ _)

theorem walkCost_le_of_suffix (hcost : ∀ u b, 0 ≤ cost u b) (h : w' <:+ w) :
    m.walkCost cost a w' ≤ m.walkCost cost a w := by
  obtain ⟨u, rfl⟩ := h
  induction u with
  | nil => exact le_rfl
  | cons b u ih => exact ih.trans (le_add_of_nonneg_right (hcost _ _))

theorem walkCost_nonneg (hcost : ∀ u b, 0 ≤ cost u b) (a : α) (w : List β) :
    0 ≤ m.walkCost cost a w := m.walkCost_le_of_suffix hcost (nil_suffix)

theorem exists_suffix_of_mem_nodes (h : x ∈ m.nodes a w) : ∃ w', w' <:+ w ∧ m.last a w' = x := by
  induction w with
  | nil =>
    rw [mem_singleton.mp h]
    exact ⟨[], suffix_refl _, rfl⟩
  | cons b w ih =>
    rcases mem_cons.mp h with rfl | h
    · exact ⟨b :: w, suffix_refl _, rfl⟩
    · obtain ⟨w', hw', hlast⟩ := ih h
      exact ⟨w', hw'.trans (suffix_cons _ _), hlast⟩

theorem exists_simple (hcost : ∀ u b, 0 ≤ cost u b) (hw : m.IsWalk a w) :
    ∃ w', m.IsWalk a w' ∧ m.last a w' = m.last a w ∧ (m.nodes a w').Nodup ∧
      m.walkCost cost a w' ≤ m.walkCost cost a w := by
  induction w with
  | nil => exact ⟨[], hw, rfl, nodup_singleton a, le_rfl⟩
  | cons b w ih =>
    obtain ⟨w', hw', hlast, hnodup, hle⟩ := ih hw.1
    have hcons : m.walkCost cost a (b :: w') ≤ m.walkCost cost a (b :: w) := by
      simp only [walkCost, hlast]
      exact add_le_add_left hle _
    by_cases hold : m.target b ∈ m.nodes a w'
    · obtain ⟨v, hv, hvlast⟩ := m.exists_suffix_of_mem_nodes hold
      refine ⟨v, hw'.of_suffix m hv, hvlast, hnodup.sublist (m.nodes_suffix a hv).sublist, ?_⟩
      exact (m.walkCost_le_of_suffix hcost (hv.trans (suffix_cons b w'))).trans hcons
    · have hb := hw.2
      rw [← hlast] at hb
      exact ⟨b :: w', ⟨hw', hb⟩, rfl, nodup_cons.mpr ⟨hold, hnodup⟩, hcons⟩

end Moves

/-- What a search runs on: hops with their costs, and a type of paths that hops extend. -/
structure WeightedSearch (α β π : Type) where
  moves : Moves α β
  cost : α → β → ℚ
  slack : α → β → ℚ
  extend : π → β → π
  endNode : π → α

abbrev heavier (x y : π × ℚ) : Prop := y.2 < x.2

instance : IsStrictWeakOrder (π × ℚ) heavier where
  irrefl x := lt_irrefl x.2
  trans x y z hxy hyz := lt_trans hyz hxy
  incomp_trans x y z hxy hyz := by
    simp only [heavier, not_lt] at *
    exact ⟨hxy.1.trans hyz.1, hyz.2.trans hxy.2⟩

namespace WeightedSearch

structure State (α : Type) (pq : PriorityQueue (π × ℚ) heavier) where
  queue : pq.Queue
  dist : α → Option ℚ
  visited : List α
  emitted : List (π × ℚ)

variable (s : WeightedSearch α β π) {pq : PriorityQueue (π × ℚ) heavier}

def build (root : π) : List β → π
  | [] => root
  | b :: w => s.extend (build root w) b

def EndsRight (a : α) (root : π) : Prop :=
  ∀ w, s.endNode (s.build root w) = s.moves.last a w

/-- The entry is the path along a walk, with its weight; before its end the walk met nodes of
`seen` only, each once. -/
def IsTrail (a : α) (root : π) (seen : List α) (x : π × ℚ) : Prop :=
  ∃ w, s.moves.IsWalk a w ∧ x.1 = s.build root w ∧ x.2 = s.moves.walkCost s.cost a w ∧
    (s.moves.nodes a w).tail.Nodup ∧ (s.moves.nodes a w).tail ⊆ seen

def IsSettled (a : α) (root : π) (seen : List α) (x : π × ℚ) : Prop :=
  ∃ w, s.moves.IsWalk a w ∧ x.1 = s.build root w ∧ x.2 = s.moves.walkCost s.cost a w ∧
    (s.moves.nodes a w).Nodup ∧ s.moves.nodes a w ⊆ seen

/-- A path to `v` that is not heavier than `d` was emitted or is queued. -/
def Reached (st : State α pq) (v : α) (d : ℚ) : Prop :=
  ∃ x ∈ st.emitted ++ pq.elems st.queue, s.endNode x.1 = v ∧ x.2 ≤ d

structure Core (a : α) (root : π) (st : State α pq) : Prop where
  settled : ∀ x ∈ st.emitted, s.IsSettled a root st.visited x
  queued : ∀ x ∈ pq.elems st.queue, s.IsTrail a root st.visited x
  visited : ∀ v, v ∈ st.visited ↔ v ∈ st.emitted.map fun x => s.endNode x.1
  nodup : (st.emitted.map fun x => s.endNode x.1).Nodup
  below : ∀ x ∈ st.emitted, ∀ y ∈ pq.elems st.queue, x.2 ≤ y.2
  bounds : ∀ v, ∀ d ∈ st.dist v, s.Reached st v d

structure Inv (a : α) (root : π) (st : State α pq) : Prop extends s.Core a root st where
  start : s.Reached st a 0
  closed : ∀ x ∈ st.emitted, ∀ b ∈ s.moves.next (s.endNode x.1),
    s.Reached st (s.moves.target b) (x.2 + s.cost (s.endNode x.1) b)

def emit (path : π × ℚ) (st : State α pq) : State α pq :=
  { st with
    visited := s.endNode path.1 :: st.visited
    emitted := st.emitted ++ [path] }

section

variable {s} {a : α} {root : π} {st st' : State α pq} {v : α} {d : ℚ}

theorem Reached.mono (h : s.Reached st v d)
    (hsub : st.emitted ++ pq.elems st.queue ⊆ st'.emitted ++ pq.elems st'.queue) :
    s.Reached st' v d := by
  obtain ⟨x, hx, hend, hle⟩ := h
  exact ⟨x, hsub hx, hend, hle⟩

theorem Reached.trans (h : s.Reached st v d) {d' : ℚ} (hle : d ≤ d') : s.Reached st v d' := by
  obtain ⟨x, hx, hend, hxd⟩ := h
  exact ⟨x, hx, hend, hxd.trans hle⟩

variable {seen : List α} {queue : pq.Queue} {x path : π × ℚ}

theorem IsTrail.mono {seen' : List α} (hx : s.IsTrail a root seen x)
    (hsub : seen ⊆ seen') : s.IsTrail a root seen' x := by
  obtain ⟨w, hwalk, hpath, hcost, hnodup, hseen⟩ := hx
  exact ⟨w, hwalk, hpath, hcost, hnodup, List.Subset.trans hseen hsub⟩

theorem IsSettled.mono {seen' : List α} (hx : s.IsSettled a root seen x)
    (hsub : seen ⊆ seen') : s.IsSettled a root seen' x := by
  obtain ⟨w, hwalk, hpath, hcost, hnodup, hseen⟩ := hx
  exact ⟨w, hwalk, hpath, hcost, hnodup, List.Subset.trans hseen hsub⟩

section

variable (hends : s.EndsRight a root)
include hends

theorem IsSettled.extend
    (hx : s.IsSettled a root seen x) {b : β} (hb : b ∈ s.moves.next (s.endNode x.1)) :
    s.IsTrail a root seen (s.extend x.1 b, x.2 + s.cost (s.endNode x.1) b) := by
  obtain ⟨w, hwalk, hpath, hcost, hnodup, hseen⟩ := hx
  have hend : s.endNode x.1 = s.moves.last a w := by rw [hpath, hends w]
  rw [hend] at hb ⊢
  exact ⟨b :: w, ⟨hwalk, hb⟩, by rw [hpath]; rfl, by rw [hcost]; rfl, hnodup, hseen⟩

theorem IsSettled.endNode_extend (hx : s.IsSettled a root seen x) (b : β) :
    s.endNode (s.extend x.1 b) = s.moves.target b := by
  obtain ⟨w, -, hpath, -⟩ := hx
  rw [hpath]
  exact hends (b :: w)

theorem IsTrail.settle (hx : s.IsTrail a root seen x) (hnew : s.endNode x.1 ∉ seen) :
    s.IsSettled a root (s.endNode x.1 :: seen) x := by
  obtain ⟨w, hwalk, hpath, hcost, hnodup, hseen⟩ := hx
  have hend : s.endNode x.1 = s.moves.last a w := by rw [hpath, hends w]
  have hcons := s.moves.nodes_eq_cons a w
  rw [← hend] at hcons
  refine ⟨w, hwalk, hpath, hcost, ?_, ?_⟩
  · rw [hcons]
    exact nodup_cons.mpr ⟨fun hmem => hnew (hseen hmem), hnodup⟩
  · rw [hcons]
    exact cons_subset_cons _ hseen

theorem IsTrail.endNode_mem {nodes : Finset α} (ha : a ∈ nodes)
    (hnodes : ∀ u ∈ nodes, ∀ b ∈ s.moves.next u, s.moves.target b ∈ nodes)
    (hx : s.IsTrail a root seen x) : s.endNode x.1 ∈ nodes := by
  obtain ⟨w, hw, hpath, -⟩ := hx
  rw [hpath, hends w]
  clear hpath
  induction w with
  | nil => exact ha
  | cons b w ih => exact hnodes _ (ih hw.1) b hw.2

end

/-- When the queue is empty, the emitted paths are the lightest ones to the nodes of walks. -/
theorem Inv.exists_emitted (h : s.Inv a root st) (hempty : pq.elems st.queue = []) {w : List β}
    (hw : s.moves.IsWalk a w) : ∃ x ∈ st.emitted, s.endNode x.1 = s.moves.last a w ∧
      x.2 ≤ s.moves.walkCost s.cost a w := by
  induction w with
  | nil =>
    have hstart := h.start
    rw [Reached, hempty, append_nil] at hstart
    exact hstart
  | cons b w ih =>
    obtain ⟨x, hx, hend, hle⟩ := ih hw.1
    have hb := hw.2
    rw [← hend] at hb
    obtain ⟨y, hy, hyend, hyle⟩ := h.closed x hx b hb
    rw [hempty, append_nil] at hy
    refine ⟨y, hy, hyend, hyle.trans ?_⟩
    rw [hend]
    exact add_le_add_left hle _

theorem Core.emit (hends : s.EndsRight a root)
    (h : s.Core a root st) (hpop : pq.pop st.queue = some (path, queue))
    (hnew : s.endNode path.1 ∉ st.visited) : s.Core a root (s.emit path { st with queue }) := by
  have hperm := pq.elems_pop _ _ _ hpop
  have hmem : ∀ x, x ∈ (s.emit path { st with queue }).emitted ++ pq.elems queue ↔
      x ∈ st.emitted ++ pq.elems st.queue := by
    intro x
    have hiff := hperm.mem_iff (a := x)
    simp only [WeightedSearch.emit, mem_append, hiff, mem_cons]
    tauto
  have hqueued := h.queued path (hperm.symm.subset (mem_cons_self ..))
  refine ⟨?_, ?_, ?_, ?_, ?_, ?_⟩
  · intro x hx
    rcases mem_append.mp hx with hx | hx
    · exact (h.settled x hx).mono (subset_cons_self _ _)
    · rw [mem_singleton.mp hx]
      exact hqueued.settle hends hnew
  · intro x hx
    exact (h.queued x (hperm.symm.subset (mem_cons_of_mem _ hx))).mono (subset_cons_self _ _)
  · intro v
    simp only [WeightedSearch.emit, map_append, mem_append, mem_cons, h.visited,
      map_cons]
    tauto
  · simp only [WeightedSearch.emit, map_append, map_cons]
    apply nodup_append.mpr
    refine ⟨h.nodup, nodup_singleton _, ?_⟩
    intro u hu v hv heq
    rw [mem_singleton.mp hv] at heq
    exact hnew ((h.visited _).mpr (heq ▸ hu))
  · intro x hx y hy
    rcases mem_append.mp hx with hx | hx
    · exact h.below x hx y (hperm.symm.subset (mem_cons_of_mem _ hy))
    · rw [mem_singleton.mp hx]
      exact not_lt.mp (pq.pop_greatest _ _ _ hpop y hy)
  · intro v d hd
    exact (h.bounds v d hd).mono fun x hx => (hmem x).mpr hx

theorem Reached.emit (h : s.Reached st v d) (hpop : pq.pop st.queue = some (path, queue)) :
    s.Reached (s.emit path { st with queue }) v d := by
  apply h.mono
  intro x hx
  have hiff := (pq.elems_pop _ _ _ hpop).mem_iff (a := x)
  simp only [WeightedSearch.emit, mem_append, hiff, mem_cons] at hx ⊢
  tauto

/-- A path to a visited node may be dropped: a path that is not heavier was emitted. -/
theorem Reached.discard (h : s.Reached st v d)
    (hcore : s.Core a root st) (hpop : pq.pop st.queue = some (path, queue))
    (hold : s.endNode path.1 ∈ st.visited) : s.Reached { st with queue } v d := by
  have hperm := pq.elems_pop _ _ _ hpop
  obtain ⟨x, hx, hend, hle⟩ := h
  rcases mem_append.mp hx with hx | hx
  · exact ⟨x, mem_append_left _ hx, hend, hle⟩
  · rcases mem_cons.mp (hperm.subset hx) with rfl | hx'
    · obtain ⟨y, hy, hyend⟩ := mem_map.mp ((hcore.visited _).mp hold)
      exact ⟨y, mem_append_left _ hy, hyend.trans hend, (hcore.below y hy x hx).trans hle⟩
    · exact ⟨x, mem_append_right _ hx', hend, hle⟩

end

variable [DecidableEq α]

def follow (path : π × ℚ) (st : State α pq) (b : β) : State α pq :=
  { st with
    queue := pq.push st.queue
      (s.extend path.1 b, path.2 + s.cost (s.endNode path.1) b)
    dist := Function.update st.dist (s.moves.target b)
      (some (path.2 + s.cost (s.endNode path.1) b + s.slack (s.endNode path.1) b)) }

def relax (path : π × ℚ) (st : State α pq) (b : β) : State α pq :=
  if ∀ d ∈ st.dist (s.moves.target b), path.2 + s.cost (s.endNode path.1) b < d then
    s.follow path st b
  else st

/-- Takes a path from the queue; nothing is left to do when the queue is empty. A path to a node
that was visited is dropped, any other is emitted and the hops from its end are relaxed. -/
def step (st : State α pq) : Option (State α pq) :=
  (pq.pop st.queue).map fun p =>
    if s.endNode p.1.1 ∈ st.visited then { st with queue := p.2 }
    else (s.moves.next (s.endNode p.1.1)).foldl (s.relax p.1) (s.emit p.1 { st with queue := p.2 })

/-- The state in which the search from `a` starts. -/
def init (pq : PriorityQueue (π × ℚ) heavier) (a : α) (root : π) : State α pq where
  queue := pq.push pq.empty (root, 0)
  dist := Function.update (fun _ => none) a (some 0)
  visited := []
  emitted := []

variable {s} {a : α} {root : π} {st st' : State α pq} {v : α} {d : ℚ}

theorem relax_cases (path : π × ℚ) (st : State α pq) (b : β) :
    s.relax path st b = s.follow path st b ∨
      s.relax path st b = st ∧ ∃ d ∈ st.dist (s.moves.target b),
        d ≤ path.2 + s.cost (s.endNode path.1) b := by
  by_cases h : ∀ d ∈ st.dist (s.moves.target b), path.2 + s.cost (s.endNode path.1) b < d
  · exact .inl (if_pos h)
  · refine .inr ⟨if_neg h, ?_⟩
    push Not at h
    exact h

theorem mem_follow (path : π × ℚ) (b : β) (x : π × ℚ) :
    x ∈ (s.follow path st b).emitted ++ pq.elems (s.follow path st b).queue ↔
      x = (s.extend path.1 b, path.2 + s.cost (s.endNode path.1) b) ∨
        x ∈ st.emitted ++ pq.elems st.queue := by
  have hpush := (pq.elems_push st.queue
    (s.extend path.1 b, path.2 + s.cost (s.endNode path.1) b)).mem_iff (a := x)
  simp only [follow, mem_append, hpush, mem_cons]
  tauto

theorem Reached.relax (h : s.Reached st v d) (path : π × ℚ) (b : β) :
    s.Reached (s.relax path st b) v d := by
  rcases relax_cases path st b with hrelax | ⟨hrelax, -⟩
  · rw [hrelax]
    apply h.mono
    intro x hx
    exact (mem_follow path b x).mpr (.inr hx)
  · rw [hrelax]
    exact h

theorem inv_init (hends : s.EndsRight a root) : s.Inv a root (init pq a root) := by
  have helems : ∀ x, x ∈ pq.elems (init pq a root).queue ↔ x = (root, 0) := by
    intro x
    have hiff := (pq.elems_push pq.empty (root, 0)).mem_iff (a := x)
    rw [pq.elems_empty, mem_singleton] at hiff
    exact hiff
  have hstart : s.Reached (init pq a root) a 0 := ⟨(root, 0), (helems _).mpr rfl, hends [], le_rfl⟩
  refine ⟨⟨by simp [init], ?_, by simp [init], by simp [init], by simp [init], ?_⟩, hstart,
    by simp [init]⟩
  · intro x hx
    rw [(helems x).mp hx]
    exact ⟨[], s.moves.isWalk_nil a, rfl, rfl, nodup_nil, nil_subset _⟩
  · intro v d hd
    by_cases hv : v = a
    · subst hv
      simp only [init, Function.update_self, mem_def, some.injEq] at hd
      exact hstart.trans hd.le
    · simp [init, Function.update_of_ne hv] at hd

section

variable (hends : s.EndsRight a root) (hcost : ∀ u b, 0 ≤ s.cost u b)
  (hslack : ∀ u b, 0 ≤ s.slack u b)

include hends hcost hslack

section

variable {path : π × ℚ} (h : s.Core a root st) (hpath : path ∈ st.emitted)
  (hlast : ∀ x ∈ st.emitted, x.2 ≤ path.2)
include h hpath hlast

/-- A hop from a path that is not lighter than those emitted keeps what holds between operations,
and the node it leads to is reached. -/
theorem Core.relax {b : β} (hb : b ∈ s.moves.next (s.endNode path.1)) :
    s.Core a root (s.relax path st b) ∧
      s.Reached (s.relax path st b) (s.moves.target b) (path.2 + s.cost (s.endNode path.1) b) := by
  rcases relax_cases path st b with hrelax | ⟨hrelax, d, hd, hle⟩
  · have htrail := h.settled path hpath
    have hnew : s.Reached (s.follow path st b) (s.moves.target b)
        (path.2 + s.cost (s.endNode path.1) b) :=
      ⟨_, (mem_follow path b _).mpr (.inl rfl), htrail.endNode_extend hends b, le_rfl⟩
    rw [hrelax]
    refine ⟨⟨h.settled, ?_, h.visited, h.nodup, ?_, ?_⟩, hnew⟩
    · intro x hx
      rcases mem_cons.mp ((pq.elems_push _ _).subset hx) with rfl | hx
      · exact htrail.extend hends hb
      · exact h.queued x hx
    · intro x hx y hy
      rcases mem_cons.mp ((pq.elems_push _ _).subset hy) with rfl | hy
      · exact (hlast x hx).trans (le_add_of_nonneg_right (hcost _ _))
      · exact h.below x hx y hy
    · intro v d hd
      by_cases hv : v = s.moves.target b
      · subst hv
        simp only [follow, Function.update_self, mem_def, some.injEq] at hd
        apply hnew.trans
        rw [← hd]
        exact le_add_of_nonneg_right (hslack _ _)
      · simp only [follow, Function.update_of_ne hv] at hd
        apply (h.bounds v d hd).mono
        intro x hx
        exact (mem_follow path b x).mpr (.inr hx)
  · rw [hrelax]
    exact ⟨h, (h.bounds _ d hd).trans hle⟩

theorem Core.foldl_relax {hops : List β} (hhops : ∀ b ∈ hops, b ∈ s.moves.next (s.endNode path.1)) :
    s.Core a root (hops.foldl (s.relax path) st) ∧
      (hops.foldl (s.relax path) st).emitted = st.emitted ∧
      (∀ v d, s.Reached st v d → s.Reached (hops.foldl (s.relax path) st) v d) ∧
      ∀ b ∈ hops, s.Reached (hops.foldl (s.relax path) st) (s.moves.target b)
        (path.2 + s.cost (s.endNode path.1) b) := by
  induction hops generalizing st with
  | nil => exact ⟨h, rfl, fun _ _ hv => hv, by simp⟩
  | cons b hops ih =>
    have hemitted : (s.relax path st b).emitted = st.emitted := by
      rcases relax_cases path st b with hrelax | ⟨hrelax, -⟩ <;> rw [hrelax]
      rfl
    obtain ⟨hcore, hreached⟩ := h.relax hends hcost hslack hpath hlast (hhops b (mem_cons_self ..))
    obtain ⟨hcore', hemitted', hkeep, hall⟩ := ih hcore (by rw [hemitted]; exact hpath)
      (by rw [hemitted]; exact hlast) fun c hc => hhops c (mem_cons_of_mem _ hc)
    refine ⟨hcore', hemitted'.trans hemitted, fun v d hv => hkeep v d (hv.relax path b), ?_⟩
    intro c hc
    rcases mem_cons.mp hc with rfl | hc
    · exact hkeep _ _ hreached
    · exact hall c hc

end

theorem Inv.step (h : s.Inv a root st) (hstep : s.step st = some st') : s.Inv a root st' := by
  obtain ⟨⟨path, queue⟩, hpop, hst⟩ := map_eq_some_iff.mp hstep
  have hperm := pq.elems_pop _ _ _ hpop
  by_cases hold : s.endNode path.1 ∈ st.visited
  · rw [if_pos hold] at hst
    subst hst
    have hsub : pq.elems queue ⊆ pq.elems st.queue := fun x hx =>
      hperm.symm.subset (mem_cons_of_mem _ hx)
    refine ⟨⟨h.settled, fun x hx => h.queued x (hsub hx), h.visited, h.nodup,
      fun x hx y hy => h.below x hx y (hsub hy), ?_⟩, ?_, ?_⟩
    · exact fun v d hd => (h.bounds v d hd).discard h.toCore hpop hold
    · exact h.start.discard h.toCore hpop hold
    · exact fun x hx b hb => (h.closed x hx b hb).discard h.toCore hpop hold
  · rw [if_neg hold] at hst
    have hmem : path ∈ st.emitted ++ [path] := mem_append_right _ (mem_singleton_self _)
    have hlast : ∀ x ∈ st.emitted ++ [path], x.2 ≤ path.2 := by
      intro x hx
      rcases mem_append.mp hx with hx | hx
      · exact h.below x hx path (hperm.symm.subset (mem_cons_self ..))
      · rw [mem_singleton.mp hx]
    obtain ⟨hcore, hemitted, hkeep, hall⟩ := (h.toCore.emit hends hpop hold).foldl_relax hends
      hcost hslack hmem hlast fun b hb => hb
    rw [hst] at hcore hemitted hkeep hall
    refine ⟨hcore, hkeep _ _ (h.start.emit hpop), ?_⟩
    intro x hx b hb
    rw [hemitted] at hx
    rcases mem_append.mp hx with hx | hx
    · exact hkeep _ _ ((h.closed x hx b hb).emit hpop)
    · obtain rfl := mem_singleton.mp hx
      exact hall b hb

end

section

variable {nodes : Finset α}

def workLeft (s : WeightedSearch α β π) (nodes : Finset α) (st : State α pq) : ℕ :=
  pq.size st.queue + ∑ v ∈ nodes with v ∉ st.visited, (s.moves.next v).length

theorem size_foldl_relax (path : π × ℚ) (hops : List β) (st : State α pq) :
    pq.size (hops.foldl (s.relax path) st).queue ≤ pq.size st.queue + hops.length ∧
      (hops.foldl (s.relax path) st).visited = st.visited := by
  induction hops generalizing st with
  | nil => exact ⟨le_rfl, rfl⟩
  | cons b hops ih =>
    obtain ⟨hsize, hvisited⟩ := ih (s.relax path st b)
    rw [foldl_cons, length_cons]
    rcases relax_cases path st b with hrelax | ⟨hrelax, -⟩
    · have hpush := pq.size_push st.queue (s.extend path.1 b, path.2 + s.cost (s.endNode path.1) b)
      have hqueue : pq.size (s.follow path st b).queue = pq.size st.queue + 1 := hpush
      rw [hrelax] at hsize hvisited ⊢
      exact ⟨by omega, hvisited⟩
    · rw [hrelax] at hsize hvisited ⊢
      exact ⟨by omega, hvisited⟩

theorem workLeft_step (hends : s.EndsRight a root) (ha : a ∈ nodes)
    (hnodes : ∀ u ∈ nodes, ∀ b ∈ s.moves.next u, s.moves.target b ∈ nodes)
    (h : s.Inv a root st) (hstep : s.step st = some st') :
    s.workLeft nodes st' < s.workLeft nodes st := by
  obtain ⟨⟨path, queue⟩, hpop, hst⟩ := map_eq_some_iff.mp hstep
  have hsize := pq.size_pop hpop
  by_cases hold : s.endNode path.1 ∈ st.visited
  · rw [if_pos hold] at hst
    subst hst
    simp only [workLeft]
    omega
  · rw [if_neg hold] at hst
    have hqueued : path ∈ pq.elems st.queue :=
      (pq.elems_pop _ _ _ hpop).symm.subset (mem_cons_self ..)
    have hmem : s.endNode path.1 ∈ nodes.filter (· ∉ st.visited) :=
      Finset.mem_filter.mpr ⟨(h.queued path hqueued).endNode_mem hends ha hnodes, hold⟩
    obtain ⟨hbound, hvisited⟩ := size_foldl_relax path
      (s.moves.next (s.endNode path.1)) (s.emit path { st with queue })
    rw [hst] at hbound hvisited
    have hfilter : nodes.filter (· ∉ st'.visited) =
        (nodes.filter (· ∉ st.visited)).erase (s.endNode path.1) := by
      ext v
      simp only [hvisited, emit, Finset.mem_filter, Finset.mem_erase, mem_cons]
      tauto
    have hsum := Finset.add_sum_erase _ (fun v => (s.moves.next v).length) hmem
    simp only [workLeft, hfilter]
    simp only [emit] at hbound
    omega

/-- The search ends, with exactly one lightest path to every node that a walk leads to. -/
theorem exists_run (hends : s.EndsRight a root) (hcost : ∀ u b, 0 ≤ s.cost u b)
    (hslack : ∀ u b, 0 ≤ s.slack u b) (ha : a ∈ nodes)
    (hnodes : ∀ u ∈ nodes, ∀ b ∈ s.moves.next u, s.moves.target b ∈ nodes)
    {fuel : ℕ} (hfuel : 1 + ∑ v ∈ nodes, (s.moves.next v).length < fuel)
    (pq : PriorityQueue (π × ℚ) heavier) : ∃ st, runLoop s.step fuel (init pq a root) = some st ∧
      Enumerates (st.emitted.map fun x => s.endNode x.1)
        (fun v => ∃ w, s.moves.IsWalk a w ∧ s.moves.last a w = v) ∧
      ∀ x ∈ st.emitted, s.IsSettled a root st.visited x ∧ ∀ w, s.moves.IsWalk a w →
        s.moves.last a w = s.endNode x.1 → x.2 ≤ s.moves.walkCost s.cost a w := by
  have hkeep : ∀ st st' : State α pq, s.Inv a root st → s.step st = some st' →
      s.Inv a root st' := fun st st' h hstep => h.step hends hcost hslack hstep
  have hinit : s.workLeft nodes (init pq a root) < fuel := by
    have hempty : pq.size pq.empty = 0 := by rw [PriorityQueue.size, pq.elems_empty]; rfl
    have hsize : pq.size (init pq a root).queue = 1 := by
      rw [init, pq.size_push, hempty]
    have hsum : ∑ v ∈ nodes with v ∉ (init pq a root).visited, (s.moves.next v).length ≤
        ∑ v ∈ nodes, (s.moves.next v).length :=
      Finset.sum_le_sum_of_subset (Finset.filter_subset _ _)
    rw [workLeft]
    omega
  obtain ⟨st, hrun⟩ := runLoop_returns hkeep (s.workLeft nodes)
    (fun st st' h hstep => workLeft_step hends ha hnodes h hstep) (inv_init hends) hinit
  obtain ⟨hinv, hdone⟩ := runLoop_keeps hkeep (inv_init hends) hrun
  have hempty : pq.elems st.queue = [] := (pq.pop_eq_none _).mp (map_eq_none_iff.mp hdone)
  have hunique : ∀ x ∈ st.emitted, ∀ y ∈ st.emitted, s.endNode x.1 = s.endNode y.1 → x = y :=
    fun x hx y hy heq => inj_on_of_nodup_map hinv.nodup hx hy heq
  refine ⟨st, hrun, ⟨hinv.nodup, ?_⟩, ?_⟩
  · intro v
    constructor
    · intro hv
      obtain ⟨x, hx, rfl⟩ := mem_map.mp hv
      obtain ⟨w, hw, hpath, -⟩ := hinv.settled x hx
      exact ⟨w, hw, by rw [hpath, hends w]⟩
    · rintro ⟨w, hw, rfl⟩
      obtain ⟨x, hx, hend, -⟩ := hinv.exists_emitted hempty hw
      exact mem_map.mpr ⟨x, hx, hend⟩
  · intro x hx
    refine ⟨hinv.settled x hx, fun w hw hlast => ?_⟩
    obtain ⟨y, hy, hend, hle⟩ := hinv.exists_emitted hempty hw
    rw [hunique x hx y hy (hlast.symm.trans hend.symm)]
    exact hle

end

end WeightedSearch

end Neug.Lib
