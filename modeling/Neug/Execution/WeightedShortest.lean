import Neug.Execution.PathExpand
import Neug.Lib.Dijkstra
import Neug.Lib.Renumber

/-! `PathExpand::any_weighted_shortest_path`, with exact weights and any priority queue. -/
namespace Neug.Execution
open Neug.Lib List Option

variable {E : Type}

/-- `weight_func`, called with the triplet, the two vertices and the payload. -/
abbrev WeightFunc (E : Type) := LabelTriplet → ℕ → ℕ → E → ℚ

/-- An edge in one of the views that the search reads; `back` tells the incoming view. -/
structure Arc (E : Type) where
  triplet : LabelTriplet
  back : Bool
  edge : E
  deriving DecidableEq, Repr

section

variable (g : ReadGraph E) (labels : List LabelTriplet) (dir : Direction) (weight : WeightFunc E)

def arcs (u : VertexRecord) : List (Arc E) :=
  labels.flatMap fun τ =>
    (if τ.srcLabel = u.label ∧ dir ≠ .inn then (g.outgoing τ u.vid).map fun e => ⟨τ, false, e⟩
      else []) ++
    if τ.dstLabel = u.label ∧ dir ≠ .out then (g.incoming τ u.vid).map fun e => ⟨τ, true, e⟩
      else []

def Arc.nbr (a : Arc E) : VertexRecord :=
  if a.back then ⟨a.triplet.srcLabel, g.src a.edge⟩ else ⟨a.triplet.dstLabel, g.dst a.edge⟩

abbrev arcMoves : Moves VertexRecord (Arc E) := ⟨arcs g labels dir, Arc.nbr g⟩

/-- The arguments of `path.expand`: both branches pass `Direction::kOut`. -/
def Arc.recorded (a : Arc E) : Hop E := ⟨a.triplet.edgeLabel, .out, a.nbr g, a.edge⟩

/-- The lambda for one input vertex. Both branches call `weight_func` with the current vertex first,
and both raise `dist` by the weight once more. -/
def weightedSearch : WeightedSearch VertexRecord (Arc E) (Path E) where
  moves := arcMoves g labels dir
  cost u a := weight a.triplet u.vid (a.nbr g).vid a.edge
  slack u a := weight a.triplet u.vid (a.nbr g).vid a.edge
  extend path a := path.expand (a.recorded g)
  endNode := Path.endNode

def searchNodes (v : VertexRecord) : Finset VertexRecord :=
  insert v ((g.crossings labels).map Crossing.head).toFinset

def searchRounds (v : VertexRecord) : ℕ :=
  2 + ∑ u ∈ searchNodes g labels v, (arcs g labels dir u).length

variable (pq : PriorityQueue (Path E × ℚ) heavier)

def weightedPaths (v : VertexRecord) : Option (List (Path E × ℚ)) :=
  (runLoop (weightedSearch g labels dir weight).step (searchRounds g labels dir v)
    (WeightedSearch.init pq v ⟨v, []⟩)).map WeightedSearch.State.emitted

def anyWeightedShortestPath (col : VertexColumn) : Option (List ((Path E × ℚ) × ℕ)) :=
  (col.rows.mapM fun x => (weightedPaths g labels dir weight pq x.1).map fun paths =>
    paths.map fun path => (path, x.2)).map List.flatten

end

section

variable (g : ReadGraph E) (labels : List LabelTriplet) (dir : Direction) (weight : WeightFunc E)

/-- The weight of a hop: `weight_func` at the triplet and the end points of the edge. -/
def hopWeight (u : VertexRecord) (h : Hop E) : ℚ :=
  match h.dir with
  | .inn => weight ⟨h.vertex.label, u.label, h.edgeLabel⟩ (g.src h.payload) (g.dst h.payload)
      h.payload
  | _ => weight ⟨u.label, h.vertex.label, h.edgeLabel⟩ (g.src h.payload) (g.dst h.payload) h.payload

/-- One path to every vertex that can be reached: a walk along edges in the recorded directions,
with the weight of its edges, and no walk to the vertex is lighter. -/
def LightestFrom (v : VertexRecord) (paths : List (Path E × ℚ)) : Prop :=
  Enumerates (paths.map fun x => x.1.endNode)
      (fun u => ∃ w, (g.moves labels dir).IsWalk v w ∧ (g.moves labels dir).last v w = u) ∧
    ∀ x ∈ paths, x.1.start = v ∧ x.1.IsWalk g labels dir ∧
      x.2 = (g.moves labels dir).walkCost (hopWeight g weight) v x.1.hops ∧
      ∀ w, (g.moves labels dir).IsWalk v w → (g.moves labels dir).last v w = x.1.endNode →
        x.2 ≤ (g.moves labels dir).walkCost (hopWeight g weight) v w

def ForwardOnly (v : VertexRecord) : Prop :=
  ∀ w, (g.moves labels dir).IsWalk v w → ((g.moves labels dir).nodes v w).Nodup →
    ∀ h ∈ w, h.dir ≠ .inn

end

variable {g : ReadGraph E} {labels : List LabelTriplet} {dir : Direction} {weight : WeightFunc E}
  {u v : VertexRecord}

def Arc.hop (g : ReadGraph E) (a : Arc E) : Hop E :=
  ⟨a.triplet.edgeLabel, if a.back then .inn else .out, a.nbr g, a.edge⟩

variable {a : Arc E} {w : List (Arc E)}

theorem mem_arcs : a ∈ arcs g labels dir u ↔ a.triplet ∈ labels ∧
    a.edge ∈ g.edges a.triplet ∧
      (a.back = false ∧ dir ≠ .inn ∧ u = ⟨a.triplet.srcLabel, g.src a.edge⟩ ∨
        a.back = true ∧ dir ≠ .out ∧ u = ⟨a.triplet.dstLabel, g.dst a.edge⟩) := by
  obtain ⟨τ, back, e⟩ := a
  obtain ⟨label, vid⟩ := u
  rw [arcs, mem_flatMap]
  constructor
  · rintro ⟨τ', hτ', ha⟩
    rcases mem_append.mp ha with ha | ha
    · split_ifs at ha with hif
      · obtain ⟨e', he', heq⟩ := mem_map.mp ha
        obtain ⟨rfl, rfl, rfl⟩ := Arc.mk.inj heq
        obtain ⟨hmem, hsrc⟩ := g.mem_outgoing.mp he'
        exact ⟨hτ', hmem, .inl ⟨rfl, hif.2, by rw [hif.1, hsrc]⟩⟩
      · cases ha
    · split_ifs at ha with hif
      · obtain ⟨e', he', heq⟩ := mem_map.mp ha
        obtain ⟨rfl, rfl, rfl⟩ := Arc.mk.inj heq
        obtain ⟨hmem, hdst⟩ := g.mem_incoming.mp he'
        exact ⟨hτ', hmem, .inr ⟨rfl, hif.2, by rw [hif.1, hdst]⟩⟩
      · cases ha
  · rintro ⟨hτ, he, ⟨hback, hdir, hu⟩ | ⟨hback, hdir, hu⟩⟩
    · obtain ⟨rfl, rfl⟩ := VertexRecord.mk.inj hu
      refine ⟨τ, hτ, mem_append_left _ ?_⟩
      rw [if_pos ⟨rfl, hdir⟩]
      exact mem_map.mpr ⟨e, g.mem_outgoing.mpr ⟨he, rfl⟩, by rw [← hback]⟩
    · obtain ⟨rfl, rfl⟩ := VertexRecord.mk.inj hu
      refine ⟨τ, hτ, mem_append_right _ ?_⟩
      rw [if_pos ⟨rfl, hdir⟩]
      exact mem_map.mpr ⟨e, g.mem_incoming.mpr ⟨he, rfl⟩, by rw [← hback]⟩

theorem hop_mem (ha : a ∈ arcs g labels dir u) : a.hop g ∈ g.hopsFrom labels dir u := by
  obtain ⟨hτ, he, ⟨hback, hdir, rfl⟩ | ⟨hback, hdir, rfl⟩⟩ := mem_arcs.mp ha
  · apply g.mem_hopsFrom.mpr
    left
    simp [Arc.hop, Arc.nbr, hback, hdir, hτ, he]
  · apply g.mem_hopsFrom.mpr
    right
    simp [Arc.hop, Arc.nbr, hback, hdir, hτ, he]

theorem exists_arc {h : Hop E} (hh : h ∈ g.hopsFrom labels dir u) :
    ∃ a ∈ arcs g labels dir u, a.hop g = h := by
  obtain ⟨l, d, ⟨label, vid⟩, e⟩ := h
  obtain ⟨ulabel, uvid⟩ := u
  have hhop : g.IsHop labels dir _ _ := g.mem_hopsFrom.mp hh
  rcases hhop with ⟨hd, hdir, hτ, he, hu, hv⟩ | ⟨hd, hdir, hτ, he, hu, hv⟩
  · dsimp only at hd hτ he hu hv
    refine ⟨⟨⟨ulabel, label, l⟩, false, e⟩, ?_, ?_⟩
    · exact mem_arcs.mpr ⟨hτ, he, .inl ⟨rfl, hdir, by rw [hu]⟩⟩
    · simp [Arc.hop, Arc.nbr, hd, hv]
  · dsimp only at hd hτ he hu hv
    refine ⟨⟨⟨label, ulabel, l⟩, true, e⟩, ?_, ?_⟩
    · exact mem_arcs.mpr ⟨hτ, he, .inr ⟨rfl, hdir, by rw [hu]⟩⟩
    · simp [Arc.hop, Arc.nbr, hd, hv]

theorem build_eq (w : List (Arc E)) :
    (weightedSearch g labels dir weight).build ⟨v, []⟩ w = ⟨v, w.map (Arc.recorded g)⟩ := by
  induction w with
  | nil => rfl
  | cons a w ih =>
    rw [WeightedSearch.build, ih]
    rfl

theorem nbr_mem_searchNodes (ha : a ∈ arcs g labels dir u) : a.nbr g ∈ searchNodes g labels v := by
  apply mem_insert_of_mem
  exact mem_toFinset.mpr (mem_map_of_mem (g.crossing_mem (hop_mem ha)))

theorem exists_weightedPaths (g : ReadGraph E) (labels : List LabelTriplet) (dir : Direction)
    (hweight : ∀ τ x y e, 0 ≤ weight τ x y e) (pq : PriorityQueue (Path E × ℚ) heavier) (v : VertexRecord) :
    ∃ paths, weightedPaths g labels dir weight pq v = some paths ∧
      Enumerates (paths.map fun x => x.1.endNode)
        (fun u => ∃ w, (arcMoves g labels dir).IsWalk v w ∧
          (arcMoves g labels dir).last v w = u) ∧
      ∀ x ∈ paths, (∃ w, (arcMoves g labels dir).IsWalk v w ∧
          x.1 = ⟨v, w.map (Arc.recorded g)⟩ ∧
          x.2 = (arcMoves g labels dir).walkCost (weightedSearch g labels dir weight).cost v w ∧
          ((arcMoves g labels dir).nodes v w).Nodup) ∧
        ∀ w, (arcMoves g labels dir).IsWalk v w → (arcMoves g labels dir).last v w = x.1.endNode →
          x.2 ≤ (arcMoves g labels dir).walkCost (weightedSearch g labels dir weight).cost v w := by
  have hstart : v ∈ searchNodes g labels v := Finset.mem_insert_self _ _
  have hrounds : 1 + ∑ u ∈ searchNodes g labels v, (arcs g labels dir u).length <
      searchRounds g labels dir v := by
    unfold searchRounds
    omega
  have hends : (weightedSearch g labels dir weight).EndsRight v ⟨v, []⟩ := by
    intro w
    cases w <;> rfl
  obtain ⟨st, hrun, henum, hpaths⟩ := WeightedSearch.exists_run hends
    (fun u a => hweight _ _ _ _) (fun u a => hweight _ _ _ _) hstart
    (fun u _ a ha => nbr_mem_searchNodes ha) hrounds pq
  refine ⟨st.emitted, by rw [weightedPaths, hrun]; rfl, henum, fun x hx => ?_⟩
  obtain ⟨⟨w, hw, hpath, hcost, hnodup, -⟩, hmin⟩ := hpaths x hx
  exact ⟨⟨w, hw, hpath.trans (build_eq w), hcost, hnodup⟩, hmin⟩

theorem last_map_hop (v : VertexRecord) (w : List (Arc E)) :
    (g.moves labels dir).last v (w.map (Arc.hop g)) = (arcMoves g labels dir).last v w := by
  cases w <;> rfl

theorem nodes_map_hop (v : VertexRecord) (w : List (Arc E)) :
    (g.moves labels dir).nodes v (w.map (Arc.hop g)) = (arcMoves g labels dir).nodes v w := by
  induction w with
  | nil => rfl
  | cons a w ih => exact congrArg (_ :: ·) ih

theorem isWalk_map_hop (hw : (arcMoves g labels dir).IsWalk v w) :
    (g.moves labels dir).IsWalk v (w.map (Arc.hop g)) := by
  induction w with
  | nil => exact hw
  | cons a w ih =>
    refine ⟨ih hw.1, ?_⟩
    rw [last_map_hop]
    exact hop_mem hw.2

theorem exists_arcs {w : List (Hop E)} (hw : (g.moves labels dir).IsWalk v w) :
    ∃ w', (arcMoves g labels dir).IsWalk v w' ∧ w'.map (Arc.hop g) = w := by
  induction w with
  | nil => exact ⟨[], hw, rfl⟩
  | cons h w ih =>
    obtain ⟨w', hw', rfl⟩ := ih hw.1
    have hh : h ∈ g.hopsFrom labels dir ((arcMoves g labels dir).last v w') := by
      rw [← last_map_hop]
      exact hw.2
    obtain ⟨a, ha, rfl⟩ := exists_arc hh
    exact ⟨a :: w', ⟨hw', ha⟩, rfl⟩

theorem cost_eq_hopWeight (weight : WeightFunc E) (ha : a ∈ arcs g labels dir u)
    (hback : a.back = false) :
    (weightedSearch g labels dir weight).cost u a = hopWeight g weight u (a.hop g) := by
  obtain ⟨-, -, ⟨-, -, rfl⟩ | ⟨htrue, -⟩⟩ := mem_arcs.mp ha
  · simp [weightedSearch, hopWeight, Arc.hop, Arc.nbr, hback]
  · rw [hback] at htrue
    cases htrue

theorem walkCost_forward (hw : (arcMoves g labels dir).IsWalk v w)
    (hback : ∀ a ∈ w, a.back = false) :
    (arcMoves g labels dir).walkCost (weightedSearch g labels dir weight).cost v w =
      (g.moves labels dir).walkCost (hopWeight g weight) v (w.map (Arc.hop g)) := by
  induction w with
  | nil => rfl
  | cons a w ih =>
    have ha := cost_eq_hopWeight weight hw.2 (hback a (mem_cons_self ..))
    rw [map_cons, Moves.walkCost, Moves.walkCost,
      ih hw.1 fun b hb => hback b (mem_cons_of_mem _ hb), last_map_hop, ha]

theorem hopWeight_nonneg (hweight : ∀ τ x y e, 0 ≤ weight τ x y e) (u : VertexRecord)
    (h : Hop E) : 0 ≤ hopWeight g weight u h := by
  unfold hopWeight
  split <;> exact hweight _ _ _ _

/-- The arcs of a walk without repeated vertices are all followed in their direction. -/
theorem ForwardOnly.back_eq_false (hforward : ForwardOnly g labels dir v)
    (hw : (arcMoves g labels dir).IsWalk v w) (hnodup : ((arcMoves g labels dir).nodes v w).Nodup) :
    ∀ a ∈ w, a.back = false := by
  intro a ha
  have hdir := hforward _ (isWalk_map_hop hw) (by rw [nodes_map_hop]; exact hnodup) (a.hop g)
    (mem_map_of_mem ha)
  cases hback : a.back with
  | false => rfl
  | true => exact absurd (by simp [Arc.hop, hback]) hdir

theorem lightestFrom_of_forwardOnly (hweight : ∀ τ x y e, 0 ≤ weight τ x y e)
    (pq : PriorityQueue (Path E × ℚ) heavier) (hforward : ForwardOnly g labels dir v) :
    ∃ paths, weightedPaths g labels dir weight pq v = some paths ∧
      LightestFrom g labels dir weight v paths := by
  obtain ⟨paths, hrun, henum, hpaths⟩ := exists_weightedPaths g labels dir hweight pq v
  refine ⟨paths, hrun, henum.congr fun u => ?_, fun x hx => ?_⟩
  · constructor
    · rintro ⟨w, hw, rfl⟩
      exact ⟨_, isWalk_map_hop hw, last_map_hop v w⟩
    · rintro ⟨w, hw, rfl⟩
      obtain ⟨w', hw', rfl⟩ := exists_arcs hw
      exact ⟨w', hw', (last_map_hop v w').symm⟩
  · obtain ⟨⟨w, hw, hpath, hcost, hnodup⟩, hmin⟩ := hpaths x hx
    have hback := hforward.back_eq_false hw hnodup
    have hrecorded : w.map (Arc.recorded g) = w.map (Arc.hop g) :=
      map_congr_left fun a ha => by simp [Arc.recorded, Arc.hop, hback a ha]
    rw [hrecorded] at hpath
    refine ⟨by rw [hpath], ?_, ?_, ?_⟩
    · rw [hpath]
      exact isWalk_map_hop hw
    · rw [hcost, hpath, walkCost_forward hw hback]
    · intro w' hw' hlast
      -- a walk with cycles is compared through the walk that is left without them
      obtain ⟨w₁, hw₁, hlast₁, hnodup₁, hle⟩ :=
        (g.moves labels dir).exists_simple (hopWeight_nonneg hweight) hw'
      obtain ⟨w₂, hw₂, rfl⟩ := exists_arcs hw₁
      rw [nodes_map_hop] at hnodup₁
      have hle₂ := hmin w₂ hw₂ (by rw [← last_map_hop, hlast₁, hlast])
      rw [walkCost_forward hw₂ (hforward.back_eq_false hw₂ hnodup₁)] at hle₂
      exact hle₂.trans hle

section

/-- The calls of `weight_func` along a walk. -/
def weightCalls (g : ReadGraph E) (labels : List LabelTriplet) (dir : Direction)
    (v : VertexRecord) : List (Arc E) → List (LabelTriplet × ℕ × ℕ × E)
  | [] => []
  | a :: w => (a.triplet, ((arcMoves g labels dir).last v w).vid, (a.nbr g).vid, a.edge) ::
      weightCalls g labels dir v w

variable {a : Arc E} {w : List (Arc E)}

theorem mem_weightCalls {τ : LabelTriplet} {x y : ℕ} {e : E}
    (h : (τ, x, y, e) ∈ weightCalls g labels dir v w) :
    ∃ a w', a :: w' <:+ w ∧ a.triplet = τ ∧ ((arcMoves g labels dir).last v w').vid = x ∧
      (a.nbr g).vid = y ∧ a.edge = e := by
  induction w with
  | nil => cases h
  | cons a w ih =>
    rcases mem_cons.mp h with heq | h
    · obtain ⟨hτ, hx, hy, he⟩ : τ = _ ∧ x = _ ∧ y = _ ∧ e = _ := by simpa using heq
      exact ⟨a, w, suffix_refl _, hτ.symm, hx.symm, hy.symm, he.symm⟩
    · obtain ⟨b, w', hsuffix, hrest⟩ := ih h
      exact ⟨b, w', hsuffix.trans (suffix_cons _ _), hrest⟩

open Classical in
noncomputable def walkWeight (g : ReadGraph E) (labels : List LabelTriplet) (dir : Direction)
    (v : VertexRecord) (w : List (Arc E)) : WeightFunc E := fun τ x y e => if (τ, x, y, e) ∈ weightCalls g labels dir v w then 0 else 1

theorem walkWeight_nonneg (g : ReadGraph E) (labels : List LabelTriplet) (dir : Direction)
    (v : VertexRecord) (w : List (Arc E)) (τ : LabelTriplet) (x y : ℕ) (e : E) :
    0 ≤ walkWeight g labels dir v w τ x y e := by
  unfold walkWeight
  split_ifs
  · exact le_rfl
  · exact zero_le_one

theorem mem_weightCalls_of_le {τ : LabelTriplet} {x y : ℕ} {e : E}
    (h : walkWeight g labels dir v w τ x y e ≤ 0) : (τ, x, y, e) ∈ weightCalls g labels dir v w := by
  by_contra hnot
  rw [walkWeight, if_neg hnot] at h
  exact absurd h (by norm_num)

theorem weightCalls_suffix {w' : List (Arc E)} (h : w' <:+ w) :
    weightCalls g labels dir v w' <:+ weightCalls g labels dir v w := by
  obtain ⟨t, rfl⟩ := h
  induction t with
  | nil => exact suffix_refl _
  | cons a t ih => exact ih.trans (suffix_cons _ _)

theorem walkCost_walkWeight {w' : List (Arc E)} (h : w' <:+ w) : (arcMoves g labels dir).walkCost
      (weightedSearch g labels dir (walkWeight g labels dir v w)).cost v w' = 0 := by
  induction w' with
  | nil => rfl
  | cons a w' ih =>
    have hcall : (a.triplet, ((arcMoves g labels dir).last v w').vid, (a.nbr g).vid, a.edge) ∈
        weightCalls g labels dir v w := by
      apply (weightCalls_suffix h).subset
      exact mem_cons_self ..
    have hzero : (weightedSearch g labels dir (walkWeight g labels dir v w)).cost
        ((arcMoves g labels dir).last v w') a = 0 := if_pos hcall
    rw [Moves.walkCost, ih ((suffix_cons _ _).trans h), hzero, add_zero]

variable {c : Arc E} {cs : List (Arc E)}

/-- Only the last arc of a walk without repeated vertices leads to its end, and none starts
there. -/
theorem suffix_of_nodup (hnodup : ((arcMoves g labels dir).nodes v (c :: cs)).Nodup)
    (h : a :: w <:+ c :: cs) :
    (a.nbr g = c.nbr g → a = c) ∧ (arcMoves g labels dir).last v w ≠ c.nbr g := by
  have hnew : c.nbr g ∉ (arcMoves g labels dir).nodes v cs := (nodup_cons.mp hnodup).1
  have hin : ∀ {w' : List (Arc E)}, w' <:+ cs →
      (arcMoves g labels dir).last v w' ∈ (arcMoves g labels dir).nodes v cs := fun hw' =>
    ((arcMoves g labels dir).nodes_suffix v hw').subset ((arcMoves g labels dir).last_mem_nodes v _)
  rcases suffix_cons_iff.mp h with heq | hsuffix
  · cases heq
    exact ⟨fun _ => rfl, fun hlast => hnew (hlast ▸ hin (suffix_refl _))⟩
  · refine ⟨fun hnbr => absurd (hin hsuffix) ?_, fun hlast => ?_⟩
    · have hlast : (arcMoves g labels dir).last v (a :: w) = c.nbr g := hnbr
      rw [hlast]
      exact hnew
    · exact hnew (hlast ▸ hin ((suffix_cons _ _).trans hsuffix))

theorem nbr_eq_of_back_ne {b : Arc E} (hb : b ∈ arcs g labels dir u)
    (hτ : a.triplet = b.triplet) (he : a.edge = b.edge) (hback : a.back ≠ b.back) :
    a.nbr g = u := by
  obtain ⟨-, -, ⟨hfalse, -, rfl⟩ | ⟨htrue, -, rfl⟩⟩ := mem_arcs.mp hb
  · have hatrue : a.back = true := by simpa [hfalse] using hback
    simp [Arc.nbr, hatrue, hτ, he]
  · have hafalse : a.back = false := by simpa [htrue] using hback
    simp [Arc.nbr, hafalse, hτ, he]

section

variable (hw : (arcMoves g labels dir).IsWalk v (c :: cs))
  (hnodup : ((arcMoves g labels dir).nodes v (c :: cs)).Nodup)
include hw hnodup

/-- With these weights every arc to the end of the walk that weighs nothing is the last one. -/
theorem eq_of_weightless {x : ℕ} (hnbr : a.nbr g = c.nbr g)
    (hcall : walkWeight g labels dir v (c :: cs) a.triplet x (a.nbr g).vid a.edge ≤ 0) : a = c := by
  obtain ⟨b, w, hsuffix, hτ, -, -, he⟩ := mem_weightCalls (mem_weightCalls_of_le hcall)
  obtain ⟨hlast, hstart⟩ := suffix_of_nodup hnodup hsuffix
  by_cases hback : a.back = b.back
  · have hab : a = b := by
      obtain ⟨τ, back, e⟩ := a
      obtain ⟨τ', back', e'⟩ := b
      simp_all
    rw [hab]
    exact hlast (hab ▸ hnbr)
  · have hu := nbr_eq_of_back_ne (hw.of_suffix _ hsuffix).2 hτ.symm he.symm hback
    exact absurd (hu.symm.trans hnbr) hstart

/-- A walk without repeated vertices that ends with an edge taken back shows the fault. -/
theorem exists_weight_not_lightest (hback : c.back = true)
    {paths : List (Path E × ℚ)} (pq : PriorityQueue (Path E × ℚ) heavier)
    (hrun : weightedPaths g labels dir (walkWeight g labels dir v (c :: cs)) pq v = some paths) :
    ¬ LightestFrom g labels dir (walkWeight g labels dir v (c :: cs)) v paths := by
  rintro ⟨-, hlightest⟩
  have hweight := walkWeight_nonneg g labels dir v (c :: cs)
  obtain ⟨paths', hrun', henum, hpaths⟩ := exists_weightedPaths g labels dir hweight pq v
  obtain rfl := some.inj (hrun.symm.trans hrun')
  obtain ⟨x, hx, hend⟩ := mem_map.mp ((henum.2 (c.nbr g)).mpr ⟨c :: cs, hw, rfl⟩)
  obtain ⟨⟨w, hwalk, hpath, hcost, -⟩, hmin⟩ := hpaths x hx
  have hle : x.2 ≤ 0 := by
    have hle := hmin (c :: cs) hw hend.symm
    rwa [walkCost_walkWeight (suffix_refl _)] at hle
  cases w with
  | nil =>
    -- the walk ends elsewhere than it starts
    rw [hpath] at hend
    have hnbr : v = c.nbr g := hend
    have hnew : c.nbr g ∉ (arcMoves g labels dir).nodes v cs := (nodup_cons.mp hnodup).1
    rw [← hnbr] at hnew
    exact hnew ((arcMoves g labels dir).start_mem_nodes v cs)
  | cons a w =>
    have hnbr : a.nbr g = c.nbr g := by
      rw [hpath] at hend
      exact hend
    have hcostTail := (arcMoves g labels dir).walkCost_nonneg
      (fun u a => hweight a.triplet u.vid (a.nbr g).vid a.edge) v w
    have hcostLast : (weightedSearch g labels dir (walkWeight g labels dir v (c :: cs))).cost
        ((arcMoves g labels dir).last v w) a ≤ 0 := by
      rw [Moves.walkCost] at hcost
      exact le_of_add_le_of_nonneg_right (hcost ▸ hle) hcostTail
    obtain rfl := eq_of_weightless hw hnodup hnbr hcostLast
    obtain ⟨-, hrecorded, hsum, -⟩ := hlightest x hx
    have hlast : (g.moves labels dir).last v (w.map (Arc.recorded g)) =
        (arcMoves g labels dir).last v w := by cases w <;> rfl
    rw [hpath] at hrecorded hsum
    have hhop : g.IsHop labels dir ((arcMoves g labels dir).last v w) (a.recorded g) := by
      rw [← hlast]
      exact g.mem_hopsFrom.mp hrecorded.2
    rcases hhop with ⟨-, -, -, -, -, hdst⟩ | ⟨hinn, -⟩
    · have hsumTail := (g.moves labels dir).walkCost_nonneg
        (hopWeight_nonneg (g := g) hweight) v (w.map (Arc.recorded g))
      have hsumLast : hopWeight g (walkWeight g labels dir v (a :: cs))
          ((arcMoves g labels dir).last v w) (a.recorded g) ≤ 0 := by
        rw [map_cons, Moves.walkCost, hlast] at hsum
        exact le_of_add_le_of_nonneg_right (hsum ▸ hle) hsumTail
      -- read as recorded, the edge is another arc to the end of the walk
      let b : Arc E := ⟨⟨((arcMoves g labels dir).last v w).label, (a.nbr g).label,
        a.triplet.edgeLabel⟩, false, a.edge⟩
      have hb : b.nbr g = a.nbr g := by
        have hvid : g.dst a.edge = (a.nbr g).vid := hdst
        simp [b, Arc.nbr.eq_def g ⟨_, false, _⟩, hvid]
      have hba : b = a := eq_of_weightless hw hnodup hb hsumLast
      rw [← hba] at hback
      cases hback
    · cases hinn

end

end

/-- For one input vertex the paths are right for all weights exactly if no edge has to be taken
back. -/
theorem forall_weight_lightestFrom_iff (pq : PriorityQueue (Path E × ℚ) heavier) :
    (∀ weight : WeightFunc E, (∀ τ x y e, 0 ≤ weight τ x y e) →
      ∃ paths, weightedPaths g labels dir weight pq v = some paths ∧
        LightestFrom g labels dir weight v paths) ↔ ForwardOnly g labels dir v := by
  constructor
  · intro hall w hw hnodup h hh hinn
    obtain ⟨t, w', rfl⟩ := append_of_mem hh
    have hsuffix : h :: w' <:+ t ++ h :: w' := suffix_append _ _
    obtain ⟨as, has, heq⟩ := exists_arcs (hw.of_suffix _ hsuffix)
    obtain ⟨c, cs, rfl, rfl, rfl⟩ := map_eq_cons_iff.mp heq
    have hnodup' := hnodup.sublist ((g.moves labels dir).nodes_suffix v hsuffix).sublist
    have hback : c.back = true := by
      by_contra hfalse
      simp [Arc.hop, hfalse] at hinn
    obtain ⟨paths, hrun, hlightest⟩ :=
      hall (walkWeight g labels dir v (c :: cs)) (walkWeight_nonneg g labels dir v (c :: cs))
    rw [← map_cons, nodes_map_hop] at hnodup'
    exact exists_weight_not_lightest has hnodup' hback pq hrun hlightest
  · intro hforward weight hweight
    exact lightestFrom_of_forwardOnly hweight pq hforward

def pathsOfRow (r : List ((Path E × ℚ) × ℕ)) (i : ℕ) : List (Path E × ℚ) :=
  (r.filter fun x => x.2 = i).map Prod.fst

theorem pathsOfRow_map (paths : List (Path E × ℚ)) (n i : ℕ) :
    pathsOfRow (paths.map fun path => (path, n)) i = if n = i then paths else [] := by
  rw [pathsOfRow, List.filter_map, List.map_map]
  split_ifs with hni
  · rw [filter_eq_self.mpr fun path _ => by simp [hni]]
    exact map_id paths
  · rw [filter_eq_nil_iff.mpr fun path _ => by simp [hni]]
    rfl

theorem pathsOfRow_flatMap (vs : List VertexRecord) (f : VertexRecord → List (Path E × ℚ))
    (k i : ℕ) : pathsOfRow ((vs.zipIdx k).flatMap fun x => (f x.1).map fun path => (path, x.2)) i =
      if k ≤ i then (vs[i - k]?.map f).getD [] else [] := by
  induction vs generalizing k with
  | nil => simp [pathsOfRow]
  | cons u vs ih =>
    have happend : ∀ a b : List ((Path E × ℚ) × ℕ), pathsOfRow (a ++ b) i =
        pathsOfRow a i ++ pathsOfRow b i := by simp [pathsOfRow]
    rw [zipIdx_cons, flatMap_cons, happend, pathsOfRow_map, ih (k + 1)]
    rcases lt_trichotomy k i with hlt | rfl | hgt
    · rw [if_neg hlt.ne, if_pos (Nat.succ_le_of_lt hlt), if_pos hlt.le, nil_append,
        show i - k = (i - (k + 1)) + 1 by omega, getElem?_cons_succ]
    · simp
    · rw [if_neg hgt.ne', if_neg (by omega), if_neg (by omega)]
      rfl

theorem anyWeightedShortestPath_eq {pq : PriorityQueue (Path E × ℚ) heavier} {col : VertexColumn}
    {f : VertexRecord → List (Path E × ℚ)}
    (h : ∀ u ∈ col.vertices, weightedPaths g labels dir weight pq u = some (f u)) :
    ∃ r, anyWeightedShortestPath g labels dir weight pq col = some r ∧
      ∀ i u, col.vertices[i]? = some u → pathsOfRow r i = f u := by
  have hmap : (col.rows.mapM fun x => (weightedPaths g labels dir weight pq x.1).map fun paths =>
      paths.map fun path => (path, x.2)) =
      some (col.rows.map fun x => (f x.1).map fun path => (path, x.2)) := by
    apply mapM_eq_some_map
    intro x hx
    have hmem : x.1 ∈ col.vertices := mem_of_getElem? (mem_zipIdx_iff_getElem?.mp hx)
    rw [h x.1 hmem]
    rfl
  refine ⟨_, by rw [anyWeightedShortestPath, hmap]; rfl, fun i u hu => ?_⟩
  rw [← flatMap_def, VertexColumn.rows, pathsOfRow_flatMap,
    Nat.sub_zero, hu]
  rfl

end Neug.Execution
