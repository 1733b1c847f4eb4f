import Neug.Lib.TwoSided

/-! What the operators see of a graph: the visible edges of every label triplet, listed at their
source by the outgoing view and at their destination by the incoming view. -/
namespace Neug.Execution
open Neug.Lib List

structure VertexRecord where
  label : ℕ
  vid : ℕ
  deriving DecidableEq, Repr

structure LabelTriplet where
  srcLabel : ℕ
  dstLabel : ℕ
  edgeLabel : ℕ
  deriving DecidableEq, Repr

inductive Direction where
  | out | inn | both
  deriving DecidableEq, Repr

/-- `StorageReadInterface` at one timestamp. An edge is known by its identity, so that parallel
edges are different. `outgoing` and `incoming` are `get_edges` of the two generic views, in the
order of the adjacency lists. -/
structure ReadGraph (E : Type) where
  src : E → ℕ
  dst : E → ℕ
  edges : LabelTriplet → List E
  outgoing : LabelTriplet → ℕ → List E
  incoming : LabelTriplet → ℕ → List E
  nodup : ∀ τ, (edges τ).Nodup
  outgoing_perm : ∀ τ v, (outgoing τ v).Perm ((edges τ).filter fun e => src e = v)
  incoming_perm : ∀ τ v, (incoming τ v).Perm ((edges τ).filter fun e => dst e = v)

structure Crossing where
  tail : VertexRecord
  head : VertexRecord
  edgeLabel : ℕ
  deriving DecidableEq, Repr

/-- One node of a `PathImpl` behind the first: the edge that was taken, with its direction, and the
vertex it led to. The payload points to the edge. -/
structure Hop (E : Type) where
  edgeLabel : ℕ
  dir : Direction
  vertex : VertexRecord
  payload : E
  deriving DecidableEq, Repr

/-- `Path`. The hops are linked like `PathImpl`, the latest first. -/
structure Path (E : Type) where
  start : VertexRecord
  hops : List (Hop E)
  deriving DecidableEq, Repr

variable {E : Type}

namespace ReadGraph

def ofEdges (src dst : E → ℕ) (edges : LabelTriplet → List E) (h : ∀ τ, (edges τ).Nodup) :
    ReadGraph E where
  src := src
  dst := dst
  edges := edges
  outgoing τ v := (edges τ).filter fun e => src e = v
  incoming τ v := (edges τ).filter fun e => dst e = v
  nodup := h
  outgoing_perm _ _ := .refl _
  incoming_perm _ _ := .refl _

variable (g : ReadGraph E) {τ : LabelTriplet} {labels : List LabelTriplet} {u v : VertexRecord}
  {e : E} {h : Hop E} {dir : Direction}

theorem mem_outgoing {x : ℕ} : e ∈ g.outgoing τ x ↔ e ∈ g.edges τ ∧ g.src e = x := by
  rw [(g.outgoing_perm τ x).mem_iff, mem_filter, decide_eq_true_eq]

theorem mem_incoming {x : ℕ} : e ∈ g.incoming τ x ↔ e ∈ g.edges τ ∧ g.dst e = x := by
  rw [(g.incoming_perm τ x).mem_iff, mem_filter, decide_eq_true_eq]

theorem nodup_outgoing (τ : LabelTriplet) (x : ℕ) : (g.outgoing τ x).Nodup :=
  (g.outgoing_perm τ x).nodup_iff.mpr ((g.nodup τ).filter _)

theorem nodup_incoming (τ : LabelTriplet) (x : ℕ) : (g.incoming τ x).Nodup :=
  (g.incoming_perm τ x).nodup_iff.mpr ((g.nodup τ).filter _)

/-- The hops along outgoing edges: the triplets of `out_labels_map[label]` one after another. -/
def outHops (labels : List LabelTriplet) (u : VertexRecord) : List (Hop E) :=
  (labels.filter fun τ => τ.srcLabel = u.label).flatMap fun τ =>
    (g.outgoing τ u.vid).map fun e => ⟨τ.edgeLabel, .out, ⟨τ.dstLabel, g.dst e⟩, e⟩

/-- The hops along incoming edges: the triplets of `in_labels_map[label]` one after another. -/
def inHops (labels : List LabelTriplet) (u : VertexRecord) : List (Hop E) :=
  (labels.filter fun τ => τ.dstLabel = u.label).flatMap fun τ =>
    (g.incoming τ u.vid).map fun e => ⟨τ.edgeLabel, .inn, ⟨τ.srcLabel, g.src e⟩, e⟩

def hopsFrom (labels : List LabelTriplet) : Direction → VertexRecord → List (Hop E)
  | .out, u => g.outHops labels u
  | .inn, u => g.inHops labels u
  | .both, u => g.outHops labels u ++ g.inHops labels u

/-- `h` goes along an edge of an allowed triplet, in its direction or against it. -/
def IsHop (labels : List LabelTriplet) (dir : Direction) (u : VertexRecord) (h : Hop E) : Prop :=
  h.dir = .out ∧ dir ≠ .inn ∧ ⟨u.label, h.vertex.label, h.edgeLabel⟩ ∈ labels ∧
      h.payload ∈ g.edges ⟨u.label, h.vertex.label, h.edgeLabel⟩ ∧
      g.src h.payload = u.vid ∧ g.dst h.payload = h.vertex.vid ∨
    h.dir = .inn ∧ dir ≠ .out ∧ ⟨h.vertex.label, u.label, h.edgeLabel⟩ ∈ labels ∧
      h.payload ∈ g.edges ⟨h.vertex.label, u.label, h.edgeLabel⟩ ∧
      g.dst h.payload = u.vid ∧ g.src h.payload = h.vertex.vid

theorem mem_outHops : h ∈ g.outHops labels u ↔
    h.dir = .out ∧ ⟨u.label, h.vertex.label, h.edgeLabel⟩ ∈ labels ∧
      h.payload ∈ g.edges ⟨u.label, h.vertex.label, h.edgeLabel⟩ ∧
      g.src h.payload = u.vid ∧ g.dst h.payload = h.vertex.vid := by
  unfold outHops
  rw [mem_flatMap]
  constructor
  · rintro ⟨⟨s, d, l⟩, hτ, hh⟩
    obtain ⟨hτ, hs⟩ := mem_filter.mp hτ
    obtain ⟨e, he, rfl⟩ := mem_map.mp hh
    obtain rfl : s = u.label := by simpa using hs
    obtain ⟨he, hsrc⟩ := g.mem_outgoing.mp he
    exact ⟨rfl, hτ, he, hsrc, rfl⟩
  · rintro ⟨hdir, hτ, he, hsrc, hdst⟩
    refine ⟨_, mem_filter.mpr ⟨hτ, by simp⟩, mem_map.mpr
      ⟨h.payload, g.mem_outgoing.mpr ⟨he, hsrc⟩, ?_⟩⟩
    rw [hdst, ← hdir]

theorem mem_inHops : h ∈ g.inHops labels u ↔
    h.dir = .inn ∧ ⟨h.vertex.label, u.label, h.edgeLabel⟩ ∈ labels ∧
      h.payload ∈ g.edges ⟨h.vertex.label, u.label, h.edgeLabel⟩ ∧
      g.dst h.payload = u.vid ∧ g.src h.payload = h.vertex.vid := by
  unfold inHops
  rw [mem_flatMap]
  constructor
  · rintro ⟨⟨s, d, l⟩, hτ, hh⟩
    obtain ⟨hτ, hd⟩ := mem_filter.mp hτ
    obtain ⟨e, he, rfl⟩ := mem_map.mp hh
    obtain rfl : d = u.label := by simpa using hd
    obtain ⟨he, hdst⟩ := g.mem_incoming.mp he
    exact ⟨rfl, hτ, he, hdst, rfl⟩
  · rintro ⟨hdir, hτ, he, hdst, hsrc⟩
    refine ⟨_, mem_filter.mpr ⟨hτ, by simp⟩, mem_map.mpr
      ⟨h.payload, g.mem_incoming.mpr ⟨he, hdst⟩, ?_⟩⟩
    rw [hsrc, ← hdir]

theorem mem_hopsFrom : h ∈ g.hopsFrom labels dir u ↔ g.IsHop labels dir u h := by
  unfold IsHop
  cases dir with
  | out => simp [hopsFrom, mem_outHops]
  | inn => simp [hopsFrom, mem_inHops]
  | both => simp [hopsFrom, mem_outHops, mem_inHops]

theorem nodup_flatMap_hops {keep : LabelTriplet → Bool} {f : LabelTriplet → List (Hop E)}
    (hl : labels.Nodup) (hf : ∀ τ, (f τ).Nodup)
    (htell : ∀ τ τ' x, keep τ → keep τ' → x ∈ f τ → x ∈ f τ' → τ = τ') :
    ((labels.filter keep).flatMap f).Nodup := by
  refine nodup_flatMap.mpr ⟨fun τ _ => hf τ, ?_⟩
  refine (hl.filter _).imp_of_mem fun {τ τ'} hτ hτ' hne x hx hx' => ?_
  exact hne (htell τ τ' x (mem_filter.mp hτ).2 (mem_filter.mp hτ').2 hx hx')

theorem nodup_outHops (hl : labels.Nodup) (u : VertexRecord) : (g.outHops labels u).Nodup := by
  refine nodup_flatMap_hops hl
    (fun τ => (g.nodup_outgoing τ u.vid).map fun _ _ heq => (Hop.mk.inj heq).2.2.2) ?_
  rintro ⟨s, d, l⟩ ⟨s', d', l'⟩ x hs hs' hx hx'
  obtain ⟨e, -, rfl⟩ := mem_map.mp hx
  simp_all

theorem nodup_inHops (hl : labels.Nodup) (u : VertexRecord) : (g.inHops labels u).Nodup := by
  refine nodup_flatMap_hops hl
    (fun τ => (g.nodup_incoming τ u.vid).map fun _ _ heq => (Hop.mk.inj heq).2.2.2) ?_
  rintro ⟨s, d, l⟩ ⟨s', d', l'⟩ x hd hd' hx hx'
  obtain ⟨e, -, rfl⟩ := mem_map.mp hx
  simp_all

theorem nodup_hopsFrom (hl : labels.Nodup) (dir : Direction) (u : VertexRecord) :
    (g.hopsFrom labels dir u).Nodup := by
  cases dir with
  | out => exact g.nodup_outHops hl u
  | inn => exact g.nodup_inHops hl u
  | both =>
    refine (g.nodup_outHops hl u).append (g.nodup_inHops hl u) fun h ho hi => ?_
    have hout := (g.mem_outHops.mp ho).1
    rw [(g.mem_inHops.mp hi).1] at hout
    cases hout

def moves (labels : List LabelTriplet) (dir : Direction) : Moves VertexRecord (Hop E) :=
  ⟨g.hopsFrom labels dir, Hop.vertex⟩

def crossings (labels : List LabelTriplet) : List Crossing :=
  labels.flatMap fun τ => (g.edges τ).flatMap fun e =>
    [⟨⟨τ.srcLabel, g.src e⟩, ⟨τ.dstLabel, g.dst e⟩, τ.edgeLabel⟩,
      ⟨⟨τ.dstLabel, g.dst e⟩, ⟨τ.srcLabel, g.src e⟩, τ.edgeLabel⟩]

theorem crossing_mem (hh : h ∈ g.hopsFrom labels dir u) :
    ⟨u, h.vertex, h.edgeLabel⟩ ∈ g.crossings labels := by
  rcases g.mem_hopsFrom.mp hh with ⟨-, -, hτ, he, hu, hv⟩ | ⟨-, -, hτ, he, hu, hv⟩
  · exact mem_flatMap.mpr ⟨_, hτ, mem_flatMap.mpr ⟨_, he, by simp [hu, hv]⟩⟩
  · exact mem_flatMap.mpr ⟨_, hτ, mem_flatMap.mpr ⟨_, he, by simp [hu, hv]⟩⟩

theorem reversible_both (labels : List LabelTriplet) : (g.moves labels .both).Reversible := by
  rintro u v ⟨h, hh, rfl⟩
  have hhop : g.IsHop labels .both u h := g.mem_hopsFrom.mp hh
  rcases hhop with ⟨-, -, hτ, he, hu, hv⟩ | ⟨-, -, hτ, he, hu, hv⟩
  · have hback : g.IsHop labels .both h.vertex ⟨h.edgeLabel, .inn, u, h.payload⟩ :=
      .inr ⟨rfl, by decide, hτ, he, hv, hu⟩
    exact ⟨_, g.mem_hopsFrom.mpr hback, rfl⟩
  · have hback : g.IsHop labels .both h.vertex ⟨h.edgeLabel, .out, u, h.payload⟩ :=
      .inl ⟨rfl, by decide, hτ, he, hv, hu⟩
    exact ⟨_, g.mem_hopsFrom.mpr hback, rfl⟩

def endpoints (τ : LabelTriplet) : Finset VertexRecord :=
  ((g.crossings [τ]).map Crossing.head).toFinset

theorem adj_endpoints (τ : LabelTriplet) (u v : VertexRecord)
    (h : (g.moves [τ] .both).Adj u v) : v ∈ g.endpoints τ := by
  obtain ⟨hop, hhop, rfl⟩ := h
  have hhop' : hop ∈ g.hopsFrom [τ] .both u := hhop
  have hcross := g.crossing_mem hhop'
  exact mem_toFinset.mpr (mem_map_of_mem hcross)

theorem card_endpoints_le (τ : LabelTriplet) : (g.endpoints τ).card ≤ (g.crossings [τ]).length := by
  refine (toFinset_card_le _).trans ?_
  rw [length_map]

end ReadGraph

theorem nodup_triplet : [(⟨0, 0, 0⟩ : LabelTriplet)].Nodup := by decide

theorem nodup_pair (τ : LabelTriplet) : (if τ = ⟨0, 0, 0⟩ then [0, 1] else [] : List ℕ).Nodup := by
  split_ifs <;> decide

def oneEdge : ReadGraph ℕ :=
  .ofEdges (fun _ => 0) (fun _ => 1) (fun τ => if τ = ⟨0, 0, 0⟩ then [0] else []) fun τ => by
    split_ifs <;> decide

namespace Path

def endNode (p : Path E) : VertexRecord :=
  match p.hops with
  | [] => p.start
  | h :: _ => h.vertex

def length (p : Path E) : ℕ := p.hops.length
def expand (p : Path E) (h : Hop E) : Path E := ⟨p.start, h :: p.hops⟩
def nodes (p : Path E) : List VertexRecord := (p.hops.map Hop.vertex ++ [p.start]).reverse

def IsWalk (g : ReadGraph E) (labels : List LabelTriplet) (dir : Direction) (p : Path E) : Prop :=
  (g.moves labels dir).IsWalk p.start p.hops

theorem endNode_eq_last (g : ReadGraph E) (labels : List LabelTriplet) (dir : Direction)
    (p : Path E) : p.endNode = (g.moves labels dir).last p.start p.hops := by
  unfold endNode
  cases p.hops <;> rfl

end Path

end Neug.Execution
