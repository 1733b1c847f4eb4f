import Neug.Lib.Renumber
import Neug.Lib.Scatter
import Neug.Storage.PropertyGraph

/-! What the graph extensions read of a stored graph at one timestamp, and the numbering of its
vertices that `BuildGraph` of both computers makes from the label counts. -/
namespace Neug.Extension

open Neug.Lib Neug.Storage List Option

abbrev Vertex := ℕ × ℕ

/-- `StorageReadInterface` with its schema. `edgeSchemas` are the keys of `e_schemas_` in the order
of the map, soft-deleted triplets among them; `outEdges` is `get_edges` of the outgoing view, `none`
if the triplet has no edge table. -/
structure Snapshot where
  vertexLabels : ℕ
  vertexTomb : Finset ℕ
  edgeLabels : ℕ
  edgeTomb : Finset ℕ
  tripletTomb : Finset Triplet
  edgeSchemas : List Triplet
  lidNum : ℕ → ℕ
  isValidVertex : ℕ → ℕ → Bool
  outEdges : Triplet → Option (ℕ → List ℕ)
  schemas_nodup : edgeSchemas.Nodup

namespace Snapshot

/-- A stored graph as a reader at `ts` sees it. -/
def ofGraph {V : Type} (g : PropertyGraph V) (ts : ℕ) (keys : List Triplet) (h : keys.Nodup) :
    Snapshot where
  vertexLabels := g.schema.vertexLabels.length
  vertexTomb := g.schema.vertexTomb
  edgeLabels := g.schema.edgeLabels.length
  edgeTomb := g.schema.edgeTomb
  tripletTomb := g.schema.tripletTomb
  edgeSchemas := keys
  lidNum label := ((g.vertexTables[label]?).map fun t => t.keys.length).getD 0
  isValidVertex label lid := g.isValidLid label lid ts == some true
  outEdges τ := (g.edgeTables τ).map fun t v =>
    ((t.outCsr.list v).filter (Nbr.visible ts)).map Nbr.neighbor
  schemas_nodup := h

/-- `vertex_label_num`: the labels that are left, as an 8-bit number. -/
def vertexLabelNum (S : Snapshot) : ℕ := (S.vertexLabels - S.vertexTomb.card) % 2 ^ 8

def vertexLabelValid (S : Snapshot) (label : ℕ) : Bool :=
  decide (label < S.vertexLabels) && decide (label ∉ S.vertexTomb)

def edgeLabelValid (S : Snapshot) (label : ℕ) : Bool :=
  decide (label < S.edgeLabels) && decide (label ∉ S.edgeTomb)

/-- One round of the loop over the labels: `label_offsets_` so far and `offset`, an `int`. -/
def addLabel (S : Snapshot) (s : List (Option ℕ) × ℕ) (label : ℕ) :
    Option (List (Option ℕ) × ℕ) :=
  if S.vertexLabelValid label then
    if s.2 + S.lidNum label < 2 ^ 31 then
      some (s.1 ++ [some s.2], s.2 + S.lidNum label)
    else none
  else some (s.1 ++ [none], s.2)

/-- `label_offsets_`, with `none` for -1, and `num_vertex_`. -/
def labelOffsets (S : Snapshot) : Option (List (Option ℕ) × ℕ) :=
  (List.range S.vertexLabelNum).foldlM S.addLabel ([], 0)

def globalToLocal (S : Snapshot) (offsets : List (Option ℕ)) (numVertex : ℕ) : List Vertex :=
  ((List.range S.vertexLabelNum).flatMap fun label =>
      match offsets[label]? with
      | some (some base) =>
        (List.range (S.lidNum label)).map fun v => (base + v, ((label, v) : Vertex))
      | _ => []).foldl
    (fun out e => out.set e.1 e.2) (List.replicate numVertex (0, 0))

/-- The edges of one entry of `e_schemas_` that the loops visit, as pairs of node numbers. No result
stands for an access beyond `label_offsets_` and for a view that throws. -/
def edgesAt (S : Snapshot) (offsets : List (Option ℕ)) (τ : Triplet) : Option (List (ℕ × ℕ)) := do
  let srcBase ← offsets[τ.1]?
  let dstBase ← offsets[τ.2.1]?
  match srcBase, dstBase with
  | some srcBase, some dstBase => do
    let view ← S.outEdges τ
    pure ((List.range (S.lidNum τ.1)).flatMap fun i =>
      if S.isValidVertex τ.1 i then
        ((view i).filter (· < S.lidNum τ.2.1)).map fun w => (srcBase + i, dstBase + w)
      else [])
  | _, _ => pure []

def visitedEdges (S : Snapshot) (offsets : List (Option ℕ)) : Option (List (ℕ × ℕ)) :=
  (S.edgeSchemas.mapM (S.edgesAt offsets)).map List.flatten

def entries (edges : List (ℕ × ℕ)) : List (ℕ × ℕ) :=
  edges.flatMap fun e => [(e.1, e.2), (e.2, e.1)]

section

variable (S : Snapshot)

def Visible (x : Vertex) : Prop :=
  S.vertexLabelValid x.1 = true ∧ x.2 < S.lidNum x.1 ∧ S.isValidVertex x.1 x.2 = true

instance (x : Vertex) : Decidable (S.Visible x) :=
  inferInstanceAs (Decidable (_ ∧ _ ∧ _))

/-- Both labels of the triplet are valid, its edge label is and the triplet itself is. -/
def tripletValid (τ : Triplet) : Bool :=
  S.vertexLabelValid τ.1 && S.vertexLabelValid τ.2.1 && S.edgeLabelValid τ.2.2 &&
    decide (τ ∉ S.tripletTomb)

/-- The edges that an outgoing view shows, from visible vertices to any id that has been given. -/
def arcs (τ : Triplet) : List (Vertex × Vertex) :=
  match S.outEdges τ with
  | none => []
  | some view => (List.range (S.lidNum τ.1)).flatMap fun i =>
      if S.isValidVertex τ.1 i then
        ((view i).filter (· < S.lidNum τ.2.1)).map fun w => ((τ.1, i), (τ.2.1, w))
      else []

def edgesOf (τ : Triplet) : List (Vertex × Vertex) :=
  (S.arcs τ).filter fun e => S.isValidVertex e.2.1 e.2.2

def visibleEdges : List (Vertex × Vertex) :=
  (S.edgeSchemas.filter S.tripletValid).flatMap S.edgesOf

def deletedTriplets : List Triplet :=
  S.edgeSchemas.filter fun τ =>
    S.vertexLabelValid τ.1 && S.vertexLabelValid τ.2.1 && !S.tripletValid τ

def deletedEdges : List (Vertex × Vertex) := S.deletedTriplets.flatMap S.edgesOf

end

section

variable (S : Snapshot)

def labelVertices (label : ℕ) : List Vertex :=
  if S.vertexLabelValid label then (List.range (S.lidNum label)).map fun v => (label, v) else []

def nodes : List Vertex := (List.range S.vertexLabelNum).flatMap S.labelVertices
def base (label : ℕ) : ℕ := ((List.range label).map fun l => (S.labelVertices l).length).sum
def index (x : Vertex) : ℕ := S.base x.1 + x.2

def offsetOf (label : ℕ) : Option ℕ :=
  if S.vertexLabelValid label then some (S.base label) else none

variable {S} {x : Vertex} {label i : ℕ}

theorem length_labelVertices (S : Snapshot) (label : ℕ) : (S.labelVertices label).length =
    if S.vertexLabelValid label then S.lidNum label else 0 := by
  rw [labelVertices]
  split_ifs <;> simp

theorem mem_labelVertices : x ∈ S.labelVertices label ↔
    S.vertexLabelValid label = true ∧ x.1 = label ∧ x.2 < S.lidNum label := by
  rw [labelVertices]
  split_ifs with h
  · rw [List.mem_map]
    constructor
    · rintro ⟨v, hv, rfl⟩
      exact ⟨h, rfl, mem_range.mp hv⟩
    · rintro ⟨-, rfl, hv⟩
      exact ⟨x.2, mem_range.mpr hv, rfl⟩
  · simp [h]

theorem mem_nodes : x ∈ S.nodes ↔
    x.1 < S.vertexLabelNum ∧ S.vertexLabelValid x.1 = true ∧ x.2 < S.lidNum x.1 := by
  simp only [nodes, mem_flatMap, mem_range, mem_labelVertices]
  constructor
  · rintro ⟨label, hlt, hvalid, rfl, hv⟩
    exact ⟨hlt, hvalid, hv⟩
  · rintro ⟨hlt, hvalid, hv⟩
    exact ⟨x.1, hlt, hvalid, rfl, hv⟩

theorem nodup_nodes (S : Snapshot) : S.nodes.Nodup := by
  rw [nodes, nodup_flatMap]
  refine ⟨fun label _ => ?_, ?_⟩
  · rw [labelVertices]
    split_ifs
    · exact nodup_range.map fun a b h => (Prod.mk.injEq _ _ _ _ ▸ h).2
    · exact nodup_nil
  · refine nodup_range.imp fun {a b} hab x hxa hxb => hab ?_
    rw [← (mem_labelVertices.mp hxa).2.1, (mem_labelVertices.mp hxb).2.1]

theorem getElem?_index (h : x ∈ S.nodes) : S.nodes[S.index x]? = some x := by
  obtain ⟨hlt, hvalid, hv⟩ := mem_nodes.mp h
  have hlen : x.2 < (S.labelVertices x.1).length := by
    rw [length_labelVertices, if_pos hvalid]
    exact hv
  rw [index, nodes, base, getElem?_flatMap_range _ hlt hlen, labelVertices, if_pos hvalid,
    getElem?_map_range _ hv]

theorem getElem?_nodes : S.nodes[i]? = some x ↔ x ∈ S.nodes ∧ i = S.index x := by
  constructor
  · intro h
    have hmem := mem_of_getElem? h
    obtain ⟨hi, hget⟩ := List.getElem?_eq_some_iff.mp h
    obtain ⟨hj, hget'⟩ := List.getElem?_eq_some_iff.mp (getElem?_index hmem)
    exact ⟨hmem, (nodup_nodes S).getElem_inj_iff.mp (hget.trans hget'.symm)⟩
  · rintro ⟨hmem, rfl⟩
    exact getElem?_index hmem

theorem index_lt (h : x ∈ S.nodes) : S.index x < S.nodes.length :=
  (List.getElem?_eq_some_iff.mp (getElem?_index h)).1

theorem labelOffsets_eq (S : Snapshot) : S.labelOffsets = if S.nodes.length < 2 ^ 31 then
      some ((range S.vertexLabelNum).map S.offsetOf, S.nodes.length) else none := by
  have hloop : ∀ n, (range n).foldlM S.addLabel ([], 0) =
      if S.base n < 2 ^ 31 then some ((range n).map S.offsetOf, S.base n) else none := by
    intro n
    induction n with
    | zero => rfl
    | succ n ih =>
      have hbase : S.base (n + 1) = S.base n + (S.labelVertices n).length := by
        simp [base, range_succ]
      rw [range_succ, foldlM_append, ih, hbase, length_labelVertices]
      by_cases hlt : S.base n < 2 ^ 31
      · rw [if_pos hlt]
        simp only [foldlM_cons, addLabel, map_append, map_cons, offsetOf]
        split_ifs <;> simp_all
      · have hlt' : ¬ S.base n + (if S.vertexLabelValid n then S.lidNum n else 0) < 2 ^ 31 := by
          omega
        rw [if_neg hlt, if_neg hlt']
        rfl
  rw [labelOffsets, hloop, nodes, length_flatMap]
  rfl

theorem labelOffsets_bind {β : Type} (f : List (Option ℕ) → ℕ → Option β) (b : β)
    (hne : S.nodes ≠ []) :
    (do let s ← S.labelOffsets
        if s.2 = 0 then some b else f s.1 s.2) = if S.nodes.length < 2 ^ 31 then
      f ((range S.vertexLabelNum).map S.offsetOf) S.nodes.length else none := by
  have hpos : S.nodes.length ≠ 0 := by rwa [ne_eq, length_eq_zero_iff]
  rw [labelOffsets_eq]
  split_ifs
  · rw [bind_eq_bind, bind_some, if_neg hpos]
  · rfl

theorem getElem?_offsets : ((range S.vertexLabelNum).map S.offsetOf)[label]? =
    if label < S.vertexLabelNum then some (S.offsetOf label) else none := by
  split_ifs with h
  · exact getElem?_map_range _ h
  · rw [getElem?_eq_none]
    simpa using h

theorem globalToLocal_eq (S : Snapshot) :
    S.globalToLocal ((range S.vertexLabelNum).map S.offsetOf) S.nodes.length = S.nodes := by
  have hwrites : ∀ e, (e ∈ (range S.vertexLabelNum).flatMap fun label =>
        match ((range S.vertexLabelNum).map S.offsetOf)[label]? with
        | some (some base) =>
          (range (S.lidNum label)).map fun v => (base + v, (label, v))
        | _ => []) ↔ e.2 ∈ S.nodes ∧ e.1 = S.index e.2 := by
    intro e
    simp only [mem_flatMap, mem_range, getElem?_offsets, mem_nodes]
    constructor
    · rintro ⟨label, hlt, he⟩
      rw [if_pos hlt, offsetOf] at he
      by_cases hvalid : S.vertexLabelValid label = true
      · rw [if_pos hvalid] at he
        obtain ⟨v, hv, rfl⟩ := mem_map.mp he
        exact ⟨⟨hlt, hvalid, mem_range.mp hv⟩, rfl⟩
      · rw [if_neg hvalid] at he
        cases he
    · rintro ⟨⟨hlt, hvalid, hv⟩, hi⟩
      refine ⟨e.2.1, hlt, ?_⟩
      rw [if_pos hlt, offsetOf, if_pos hvalid]
      exact mem_map.mpr ⟨e.2.2, mem_range.mpr hv, Prod.ext hi.symm rfl⟩
  have hlen : (S.globalToLocal ((range S.vertexLabelNum).map S.offsetOf)
      S.nodes.length).length = S.nodes.length := by
    rw [globalToLocal, length_foldl_set, length_replicate]
  refine ext_getElem? fun i => ?_
  by_cases hi : i < S.nodes.length
  · have hx := getElem?_eq_getElem hi
    obtain ⟨hmem, hindex⟩ := getElem?_nodes.mp hx
    rw [hx, globalToLocal, getElem?_foldl_set ⟨(i, S.nodes[i]), (hwrites _).mpr ⟨hmem, hindex⟩, rfl⟩
      _ _ (by simpa using hi)]
    intro e he hei
    obtain ⟨hmem', hindex'⟩ := (hwrites e).mp he
    have hsame := getElem?_index hmem'
    rw [← hindex', hei, hx] at hsame
    exact (some.inj hsame).symm
  · rw [getElem?_eq_none (by omega), getElem?_eq_none (by omega)]

/-- The nodes are the visible vertices exactly if no valid label is left out and no id of a label
that is counted belongs to a vertex that the reader does not see. -/
theorem mem_nodes_iff_visible : (∀ x, x ∈ S.nodes ↔ S.Visible x) ↔
    (∀ x, S.Visible x → x.1 < S.vertexLabelNum) ∧
      ∀ label < S.vertexLabelNum, S.vertexLabelValid label = true →
        ∀ v < S.lidNum label, S.isValidVertex label v = true := by
  constructor
  · intro h
    refine ⟨fun x hx => (mem_nodes.mp ((h x).mpr hx)).1, fun label hlt hvalid v hv => ?_⟩
    exact ((h (label, v)).mp (mem_nodes.mpr ⟨hlt, hvalid, hv⟩)).2.2
  · rintro ⟨hlabels, hdense⟩ x
    rw [mem_nodes]
    constructor
    · rintro ⟨hlt, hvalid, hv⟩
      exact ⟨hvalid, hv, hdense x.1 hlt hvalid x.2 hv⟩
    · intro hx
      exact ⟨hlabels x hx, hx.1, hx.2.1⟩

end

section

variable (S : Snapshot)

/-- The triplets that `BuildGraph` does not skip. -/
def keptTriplets : List Triplet :=
  S.edgeSchemas.filter fun τ => S.vertexLabelValid τ.1 && S.vertexLabelValid τ.2.1

def visited : List (Vertex × Vertex) := S.keptTriplets.flatMap S.arcs

/-- `label_offsets_` has an entry for both labels of every triplet, and the triplets that are not
skipped have edge tables. -/
def Readable : Prop :=
  ∀ τ ∈ S.edgeSchemas, τ.1 < S.vertexLabelNum ∧ τ.2.1 < S.vertexLabelNum ∧
    (S.vertexLabelValid τ.1 = true → S.vertexLabelValid τ.2.1 = true → (S.outEdges τ).isSome)

instance : Decidable S.Readable :=
  inferInstanceAs (Decidable (∀ τ ∈ S.edgeSchemas, _))

variable {S}

theorem edgesAt_eq (τ : Triplet) : S.edgesAt ((range S.vertexLabelNum).map S.offsetOf) τ =
      if τ.1 < S.vertexLabelNum ∧ τ.2.1 < S.vertexLabelNum then
        if S.vertexLabelValid τ.1 && S.vertexLabelValid τ.2.1 then
          (S.outEdges τ).map fun _ => (S.arcs τ).map fun e => (S.index e.1, S.index e.2)
        else some []
      else none := by
  rw [edgesAt, getElem?_offsets, getElem?_offsets]
  by_cases hsrc : τ.1 < S.vertexLabelNum
  · by_cases hdst : τ.2.1 < S.vertexLabelNum
    · simp only [hsrc, hdst, offsetOf]
      cases S.vertexLabelValid τ.1
      · rfl
      · cases S.vertexLabelValid τ.2.1
        · rfl
        · cases hview : S.outEdges τ with
          | none => rfl
          | some view =>
            simp only [arcs, hview, and_self, map_flatMap]
            refine congrArg some (flatMap_congr fun i _ => ?_)
            split_ifs
            · rw [List.map_map]
              rfl
            · rfl
    · simp [hdst]
  · simp [hsrc]

theorem visitedEdges_eq_some_iff {edges : List (ℕ × ℕ)} :
    S.visitedEdges ((range S.vertexLabelNum).map S.offsetOf) = some edges ↔ S.Readable ∧ edges =
        S.visited.map fun e => (S.index e.1, S.index e.2) := by
  have hsome : ∀ τ, (S.edgesAt ((range S.vertexLabelNum).map S.offsetOf) τ).isSome ↔
      τ.1 < S.vertexLabelNum ∧ τ.2.1 < S.vertexLabelNum ∧
        (S.vertexLabelValid τ.1 = true → S.vertexLabelValid τ.2.1 = true →
          (S.outEdges τ).isSome) := by
    intro τ
    rw [edgesAt_eq]
    split_ifs with hlt hvalid
    · simp [hlt, Bool.and_eq_true_iff.mp hvalid]
    · have hskip : S.vertexLabelValid τ.1 = true → ¬ S.vertexLabelValid τ.2.1 = true :=
        fun hs hd => hvalid (by rw [hs, hd]; rfl)
      simp only [isSome_some, true_iff]
      exact ⟨hlt.1, hlt.2, fun hs hd => absurd hd (hskip hs)⟩
    · simp only [isSome_none, Bool.false_eq_true, false_iff]
      exact fun h => hlt ⟨h.1, h.2.1⟩
  have hvalue : S.Readable → S.visitedEdges ((range S.vertexLabelNum).map S.offsetOf) =
        some (S.visited.map fun e => (S.index e.1, S.index e.2)) := by
    intro hread
    have hall : ∀ τ ∈ S.edgeSchemas, S.edgesAt ((range S.vertexLabelNum).map S.offsetOf) τ =
          some (if S.vertexLabelValid τ.1 && S.vertexLabelValid τ.2.1 then
            (S.arcs τ).map fun e => (S.index e.1, S.index e.2) else []) := by
      intro τ hτ
      obtain ⟨hsrc, hdst, htable⟩ := hread τ hτ
      rw [edgesAt_eq, if_pos ⟨hsrc, hdst⟩]
      split_ifs with hvalid
      · obtain ⟨hs, hd⟩ := Bool.and_eq_true_iff.mp hvalid
        obtain ⟨view, hview⟩ := isSome_iff_exists.mp (htable hs hd)
        rw [hview, map_some]
      · rfl
    rw [visitedEdges, mapM_eq_some_map hall, map_some, visited, keptTriplets, map_flatMap]
    congr 1
    induction S.edgeSchemas with
    | nil => rfl
    | cons τ rest ih =>
      rw [map_cons, flatten_cons, ih, filter_cons]
      split_ifs
      · rw [flatMap_cons]
      · rfl
  constructor
  · intro h
    have hread : S.Readable := by
      intro τ hτ
      rw [← hsome τ]
      by_contra hnone
      rw [visitedEdges, mapM_eq_none hτ (not_isSome_iff_eq_none.mp hnone)] at h
      cases h
    rw [hvalue hread, some.injEq] at h
    exact ⟨hread, h.symm⟩
  · rintro ⟨hread, rfl⟩
    exact hvalue hread

variable {e : Vertex × Vertex} {edges : List (Vertex × Vertex)}

theorem mem_arcs {τ : Triplet} (h : e ∈ S.arcs τ) :
    (e.1.1 = τ.1 ∧ e.1.2 < S.lidNum τ.1 ∧ S.isValidVertex τ.1 e.1.2 = true) ∧
      e.2.1 = τ.2.1 ∧ e.2.2 < S.lidNum τ.2.1 := by
  rw [arcs] at h
  cases hview : S.outEdges τ with
  | none =>
    rw [hview] at h
    cases h
  | some view =>
    rw [hview] at h
    obtain ⟨i, hi, h⟩ := mem_flatMap.mp h
    split_ifs at h with hvalid
    · obtain ⟨w, hw, rfl⟩ := mem_map.mp h
      exact ⟨⟨rfl, mem_range.mp hi, hvalid⟩, rfl, by simpa using (mem_filter.mp hw).2⟩
    · cases h

theorem Readable.ends (hread : S.Readable) :
    ∀ e ∈ S.visited, e.1 ∈ S.nodes ∧ e.2 ∈ S.nodes := by
  intro e h
  obtain ⟨τ, hτ, he⟩ := mem_flatMap.mp h
  obtain ⟨hτ, hvalid⟩ := mem_filter.mp hτ
  obtain ⟨hs, hd⟩ := Bool.and_eq_true_iff.mp hvalid
  obtain ⟨hsrc, hdst, -⟩ := hread τ hτ
  obtain ⟨⟨h1, h2, -⟩, h3, h4⟩ := mem_arcs he
  refine ⟨mem_nodes.mpr ?_, mem_nodes.mpr ?_⟩
  · rw [h1]
    exact ⟨hsrc, hs, h2⟩
  · rw [h3]
    exact ⟨hdst, hd, h4⟩

/-- Where the nodes are the visible vertices, the visited edges are the visible ones and those of
the triplets that are soft-deleted. -/
theorem visited_perm (hread : S.Readable) (hnodes : ∀ x, x ∈ S.nodes ↔ S.Visible x) :
    S.visited.Perm (S.visibleEdges ++ S.deletedEdges) := by
  have hkept : S.visited = S.keptTriplets.flatMap S.edgesOf := by
    refine flatMap_congr fun τ hτ => ?_
    rw [edgesOf, filter_eq_self.mpr]
    intro e he
    have hmem := (hread.ends e (mem_flatMap.mpr ⟨τ, hτ, he⟩)).2
    exact ((hnodes _).mp hmem).2.2
  have hsplit : S.keptTriplets.Perm (S.edgeSchemas.filter S.tripletValid ++ S.deletedTriplets) := by
    have hvalid : S.edgeSchemas.filter S.tripletValid = S.keptTriplets.filter S.tripletValid := by
      rw [keptTriplets, List.filter_filter]
      refine filter_congr fun τ _ => ?_
      rw [tripletValid]
      cases S.vertexLabelValid τ.1 <;> cases S.vertexLabelValid τ.2.1 <;> simp
    have hdeleted : S.deletedTriplets = S.keptTriplets.filter fun τ => !S.tripletValid τ := by
      rw [keptTriplets, List.filter_filter]
      exact filter_congr fun τ _ => Bool.and_comm _ _
    rw [hvalid, hdeleted]
    exact (filter_append_perm S.tripletValid S.keptTriplets).symm
  rw [hkept, visibleEdges, deletedEdges, ← flatMap_append]
  exact hsplit.flatMap_right _

/-- The other ends of the edges at `x`; a self-loop counts twice. -/
def incident (edges : List (Vertex × Vertex)) (x : Vertex) : List Vertex :=
  edges.flatMap fun e => (if e.1 = x then [e.2] else []) ++ if e.2 = x then [e.1] else []

theorem mem_incident {x y : Vertex} : y ∈ incident edges x ↔ (x, y) ∈ edges ∨ (y, x) ∈ edges := by
  simp only [incident, mem_flatMap, mem_append]
  constructor
  · rintro ⟨e, he, h | h⟩
    · split_ifs at h with hx
      · exact .inl (by rw [← hx, mem_singleton.mp h]; exact he)
      · cases h
    · split_ifs at h with hx
      · exact .inr (by rw [← hx, mem_singleton.mp h]; exact he)
      · cases h
  · rintro (h | h)
    · exact ⟨_, h, .inl (by simp)⟩
    · exact ⟨_, h, .inr (by simp)⟩

theorem incident_perm {edges' : List (Vertex × Vertex)} (h : edges.Perm edges')
    (x : Vertex) : (incident edges x).Perm (incident edges' x) :=
  h.flatMap_right _

theorem rowOf_entries
    (hedges : ∀ e ∈ edges, e.1 ∈ S.nodes ∧ e.2 ∈ S.nodes) {x : Vertex} (hx : x ∈ S.nodes) :
    rowOf (entries (edges.map fun e => (S.index e.1, S.index e.2))) (S.index x) =
      (incident edges x).map S.index := by
  have hsame : ∀ {y}, y ∈ S.nodes → (S.index y = S.index x ↔ y = x) := by
    intro y hy
    refine ⟨fun h => ?_, fun h => by rw [h]⟩
    have hget := getElem?_index hy
    rw [h, getElem?_index hx, some.injEq] at hget
    exact hget.symm
  induction edges with
  | nil => rfl
  | cons e edges ih =>
    obtain ⟨h1, h2⟩ := hedges e mem_cons_self
    have hrest := ih fun f hf => hedges f (mem_cons_of_mem _ hf)
    rw [entries, map_cons, flatMap_cons, rowOf_append, ← entries, hrest, incident, incident,
      flatMap_cons]
    simp only [rowOf, filter_cons, hsame h1, hsame h2, decide_eq_true_eq]
    split_ifs <;> rfl

theorem lt_of_mem_entries (hedges : ∀ e ∈ edges, e.1 ∈ S.nodes ∧ e.2 ∈ S.nodes) {a : ℕ × ℕ}
    (ha : a ∈ entries (edges.map fun e => (S.index e.1, S.index e.2))) :
    a.1 < S.nodes.length ∧ a.2 < S.nodes.length := by
  obtain ⟨b, hb, hab⟩ := mem_flatMap.mp ha
  obtain ⟨e, he, rfl⟩ := mem_map.mp hb
  have h1 := index_lt (hedges e he).1
  have h2 := index_lt (hedges e he).2
  rcases mem_cons.mp hab with rfl | hab
  · exact ⟨h1, h2⟩
  · rw [mem_singleton.mp hab]
    exact ⟨h2, h1⟩

theorem visible_of_mem_edgesOf {τ : Triplet} (h : e ∈ S.edgesOf τ)
    (hs : S.vertexLabelValid τ.1 = true) (hd : S.vertexLabelValid τ.2.1 = true) :
    S.Visible e.1 ∧ S.Visible e.2 := by
  obtain ⟨he, hdst⟩ := mem_filter.mp h
  obtain ⟨⟨h1, h2, h3⟩, h4, h5⟩ := mem_arcs he
  refine ⟨⟨?_, ?_, ?_⟩, ?_, ?_, hdst⟩
  · rwa [h1]
  · rwa [h1]
  · rwa [h1]
  · rwa [h4]
  · rwa [h4]

theorem visible_of_mem_visibleEdges (h : e ∈ S.visibleEdges) : S.Visible e.1 ∧ S.Visible e.2 := by
  obtain ⟨τ, hτ, he⟩ := mem_flatMap.mp h
  have hvalid := (mem_filter.mp hτ).2
  rw [tripletValid, Bool.and_eq_true_iff, Bool.and_eq_true_iff, Bool.and_eq_true_iff] at hvalid
  exact visible_of_mem_edgesOf he hvalid.1.1.1 hvalid.1.1.2

theorem visible_of_mem_deletedEdges (h : e ∈ S.deletedEdges) : S.Visible e.1 ∧ S.Visible e.2 := by
  obtain ⟨τ, hτ, he⟩ := mem_flatMap.mp h
  have hvalid := (mem_filter.mp hτ).2
  rw [Bool.and_eq_true_iff, Bool.and_eq_true_iff] at hvalid
  exact visible_of_mem_edgesOf he hvalid.1.1 hvalid.1.2

theorem edges_eq_nil (h : ∀ x, ¬ S.Visible x) : S.visibleEdges = [] ∧ S.deletedEdges = [] :=
  ⟨eq_nil_iff_forall_not_mem.mpr fun _ he => h _ (visible_of_mem_visibleEdges he).1,
    eq_nil_iff_forall_not_mem.mpr fun _ he => h _ (visible_of_mem_deletedEdges he).1⟩

end

section

variable {V : Type} {g : PropertyGraph V} {ts : ℕ} {keys : List Triplet} {h : keys.Nodup}

theorem visible_ofGraph {label v : ℕ} : (ofGraph g ts keys h).Visible (label, v) ↔
    g.schema.vertexLabelValid label = true ∧ ∃ x ∈ g.vertices label ts, x.1 = v := by
  refine and_congr_right fun _ => ?_
  cases ht : g.vertexTables[label]? with
  | none => simp [ofGraph, PropertyGraph.vertices, ht]
  | some t =>
    simp only [ofGraph, PropertyGraph.vertices, PropertyGraph.isValidLid, ht, map_some,
      getD_some, VertexTable.vertices, List.mem_map, mem_filter,
      mem_range]
    constructor
    · rintro ⟨hlt, hvalid⟩
      exact ⟨_, ⟨v, ⟨hlt, hvalid⟩, rfl⟩, rfl⟩
    · rintro ⟨_, ⟨w, hw, rfl⟩, rfl⟩
      exact hw

/-- The visible edges of a stored graph are those its outgoing views show between such vertices. -/
theorem mem_edgesOf_ofGraph {τ : Triplet} {i w : ℕ}
    (hs : g.schema.vertexLabelValid τ.1 = true) (hd : g.schema.vertexLabelValid τ.2.1 = true) :
    ((τ.1, i), (τ.2.1, w)) ∈ (ofGraph g ts keys h).edgesOf τ ↔
      (ofGraph g ts keys h).Visible (τ.1, i) ∧ (ofGraph g ts keys h).Visible (τ.2.1, w) ∧
        ∃ t, g.edgeTables τ = some t ∧ ∃ n ∈ t.outCsr.list i, n.visible ts = true ∧
          n.neighbor = w := by
  have hview : (ofGraph g ts keys h).outEdges τ = (g.edgeTables τ).map fun t v =>
    ((t.outCsr.list v).filter (Nbr.visible ts)).map Nbr.neighbor := rfl
  constructor
  · intro he
    obtain ⟨hsrc, hdst⟩ := visible_of_mem_edgesOf he hs hd
    refine ⟨hsrc, hdst, ?_⟩
    have harc := (mem_filter.mp he).1
    cases ht : g.edgeTables τ with
    | none => simp [arcs, hview, ht] at harc
    | some t =>
      simp only [arcs, hview, ht, map_some, mem_flatMap] at harc
      obtain ⟨j, -, harc⟩ := harc
      split_ifs at harc
      · obtain ⟨u, hu, heq⟩ := mem_map.mp harc
        obtain ⟨n, hn, hnu⟩ := mem_map.mp (mem_filter.mp hu).1
        obtain ⟨rfl, rfl⟩ := heq
        exact ⟨t, rfl, n, (mem_filter.mp hn).1, (mem_filter.mp hn).2, hnu⟩
      · cases harc
  · rintro ⟨hsrc, hdst, t, ht, n, hn, hvisible, rfl⟩
    refine mem_filter.mpr ⟨?_, hdst.2.2⟩
    simp only [arcs, hview, ht, map_some, mem_flatMap, mem_range]
    refine ⟨i, hsrc.2.1, ?_⟩
    have hvalid : (ofGraph g ts keys h).isValidVertex τ.1 i = true := hsrc.2.2
    rw [if_pos hvalid]
    exact mem_map.mpr ⟨n.neighbor, mem_filter.mpr ⟨mem_map.mpr
      ⟨n, mem_filter.mpr ⟨hn, hvisible⟩, rfl⟩, decide_eq_true hdst.2.1⟩, rfl⟩

end

/-- `A` is dropped, then `B` holds one vertex: the counted labels are those below 1. -/
def droppedFirst : Snapshot where
  vertexLabels := 2
  vertexTomb := {0}
  edgeLabels := 0
  edgeTomb := ∅
  tripletTomb := ∅
  edgeSchemas := []
  lidNum label := if label = 1 then 1 else 0
  isValidVertex label v := label = 1 && v = 0
  outEdges _ := none
  schemas_nodup := List.nodup_nil

def deletedVertex : Snapshot where
  vertexLabels := 1
  vertexTomb := ∅
  edgeLabels := 0
  edgeTomb := ∅
  tripletTomb := ∅
  edgeSchemas := []
  lidNum _ := 2
  isValidVertex _ v := v = 1
  outEdges _ := none
  schemas_nodup := List.nodup_nil

end Snapshot

end Neug.Extension
