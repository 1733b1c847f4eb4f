import Neug.Lib.Renumber
import Neug.Storage.Compaction
import Neug.Storage.ValidityMap

/-! What a reader sees of a graph by names, and when compaction leaves it as it was. -/
namespace Neug.Storage
open Neug.Lib List Option Bool

variable {V : Type}

namespace Schema

variable {s : Schema V} {name : String}

/-- `get_vertex_label_id`: the id of a label that is not deleted. -/
def vertexId (s : Schema V) (name : String) : Option ℕ :=
  (s.vertexLabels.idxOf? name).filter s.vertexLabelValid

def edgeId (s : Schema V) (name : String) : Option ℕ :=
  (s.edgeLabels.idxOf? name).filter s.edgeLabelValid

def newVertex (s : Schema V) (label : ℕ) : ℕ := s.liveVertexLabels.idxOf label
def newEdge (s : Schema V) (label : ℕ) : ℕ := s.liveEdgeLabels.idxOf label

theorem mem_liveVertexLabels {label : ℕ} :
    label ∈ s.liveVertexLabels ↔ s.vertexLabelValid label = true := by
  have h : label ∈ s.liveVertexLabels ↔ _ := mem_kept
  rw [h, and_iff_right_iff_imp]
  intro hvalid
  simp only [vertexLabelValid, and_eq_true, decide_eq_true_eq] at hvalid
  exact hvalid.1

theorem mem_liveEdgeLabels {label : ℕ} :
    label ∈ s.liveEdgeLabels ↔ s.edgeLabelValid label = true := by
  have h : label ∈ s.liveEdgeLabels ↔ _ := mem_kept
  rw [h, and_iff_right_iff_imp]
  intro hvalid
  simp only [edgeLabelValid, and_eq_true, decide_eq_true_eq] at hvalid
  exact hvalid.1

end Schema

theorem addLabels_eq_ok (failure : String → CompactError) {names more : List String}
    (h : (names ++ more).Nodup) : addLabels failure names more = .ok (names ++ more) := by
  induction more generalizing names with
  | nil => rw [addLabels, append_nil]
  | cons name more ih =>
    have hnew : name ∉ names := fun hmem =>
      (nodup_append.mp h).2.2 name hmem name (mem_cons_self ..) rfl
    rw [addLabels, if_neg hnew, ih (by simpa using h), append_assoc, singleton_append]

namespace Schema

variable {s : Schema V} {name : String}

def compacted (s : Schema V) : Schema V where
  vertexLabels := s.liveVertexLabels.map s.vertexName
  vertexTomb := ∅
  vertexSchemas := s.liveVertexLabels.filterMap fun label => s.vertexSchemas[label]?
  edgeLabels := s.liveEdgeLabels.map s.edgeName
  edgeTomb := ∅
  tripletTomb := ∅

theorem compact_eq_ok (hv : s.vertexLabels.Nodup) (he : s.edgeLabels.Nodup) :
    s.compact = .ok s.compacted := by
  have hvertex : (s.liveVertexLabels.map s.vertexName).Nodup := nodup_map_kept hv _
  have hedge : (s.liveEdgeLabels.map s.edgeName).Nodup := nodup_map_kept he _
  unfold compact
  rw [addLabels_eq_ok _ (by simpa using hvertex), addLabels_eq_ok _ (by simpa using hedge)]
  rfl

theorem vertexId_of_tomb_empty (h : s.vertexTomb = ∅) :
    s.vertexId name = s.vertexLabels.idxOf? name := by
  unfold vertexId
  cases hlabel : s.vertexLabels.idxOf? name with
  | none => rfl
  | some label =>
    obtain ⟨hlt, -, -⟩ := idxOf?_eq_some_iff.mp hlabel
    simp [vertexLabelValid, h, hlt]

theorem edgeId_of_tomb_empty (h : s.edgeTomb = ∅) : s.edgeId name = s.edgeLabels.idxOf? name := by
  unfold edgeId
  cases hlabel : s.edgeLabels.idxOf? name with
  | none => rfl
  | some label =>
    obtain ⟨hlt, -, -⟩ := idxOf?_eq_some_iff.mp hlabel
    simp [edgeLabelValid, h, hlt]

theorem vertexId_compacted (hv : s.vertexLabels.Nodup) (name : String) :
    s.compacted.vertexId name = (s.vertexId name).map s.newVertex := by
  rw [vertexId_of_tomb_empty rfl]
  exact idxOf?_map_kept hv s.vertexLabelValid name

theorem edgeId_compacted (he : s.edgeLabels.Nodup) (name : String) :
    s.compacted.edgeId name = (s.edgeId name).map s.newEdge := by
  rw [edgeId_of_tomb_empty rfl]
  exact idxOf?_map_kept he s.edgeLabelValid name

theorem vertexId_vertexName (hv : s.vertexLabels.Nodup) {label : ℕ}
    (h : s.vertexLabelValid label = true) : s.vertexId (s.vertexName label) = some label := by
  have hlt : label < s.vertexLabels.length := by
    simp only [vertexLabelValid, and_eq_true, decide_eq_true_eq] at h
    exact h.1
  unfold vertexId vertexName
  rw [idxOf?_getD hv hlt]
  simp [h]

theorem edgeId_edgeName (he : s.edgeLabels.Nodup) {label : ℕ}
    (h : s.edgeLabelValid label = true) : s.edgeId (s.edgeName label) = some label := by
  have hlt : label < s.edgeLabels.length := by
    simp only [edgeLabelValid, and_eq_true, decide_eq_true_eq] at h
    exact h.1
  unfold edgeId edgeName
  rw [idxOf?_getD he hlt]
  simp [h]

theorem newVertex_inj {a b : ℕ} (hb : s.vertexLabelValid b = true)
    (h : s.newVertex b = s.newVertex a) : b = a :=
  (idxOf_inj (mem_liveVertexLabels.mpr hb)).mp h

theorem newEdge_inj {a b : ℕ} (hb : s.edgeLabelValid b = true)
    (h : s.newEdge b = s.newEdge a) : b = a :=
  (idxOf_inj (mem_liveEdgeLabels.mpr hb)).mp h

end Schema

namespace PropertyGraph

/-- What the operations on schema and tables promise: the labels have different names, and every
label has a schema and a table. A label that is not deleted has a primary key. -/
structure Consistent (g : PropertyGraph V) : Prop where
  vertexNames : g.schema.vertexLabels.Nodup
  edgeNames : g.schema.edgeLabels.Nodup
  tables : g.vertexTables.length = g.schema.vertexLabels.length
  schemas : g.schema.vertexSchemas.length = g.schema.vertexLabels.length
  primaryKey : ∀ label s, g.schema.vertexLabelValid label = true →
    g.schema.vertexSchemas[label]? = some s → s.primaryKey.isSome = true

def tripletId (g : PropertyGraph V) (n : TripletName) : Option Triplet := do
  let src ← g.schema.vertexId n.1
  let dst ← g.schema.vertexId n.2.1
  let e ← g.schema.edgeId n.2.2
  if g.exist (src, dst, e) then some (src, dst, e) else none

def propertiesOf (g : PropertyGraph V) (name : String) : Option (List (PropertyDef V)) :=
  (g.schema.vertexId name).map g.vertexProperties

def verticesOf (g : PropertyGraph V) (name : String) (ts : ℕ) :
    Option (List (ℕ × Option V × List (Option V))) :=
  (g.schema.vertexId name).map fun label => g.vertices label ts

def edgeTableOf (g : PropertyGraph V) (n : TripletName) : Option (EdgeTable V) :=
  (g.tripletId n).bind g.edgeTables

def outgoingOf (g : PropertyGraph V) (n : TripletName) (ts : ℕ) :
    List (ℕ × ℕ × List (Option V)) :=
  ((g.edgeTableOf n).map fun t => t.outgoing ts).getD []

def incomingOf (g : PropertyGraph V) (n : TripletName) (ts : ℕ) :
    List (ℕ × ℕ × List (Option V)) :=
  ((g.edgeTableOf n).map fun t => t.incoming ts).getD []

/-- A reader of `g'` at `t` sees what a reader of `g` sees at `ts`: labels, triplets and
properties, the vertices, and the edges in both views. -/
structure SameReads (g : PropertyGraph V) (ts : ℕ) (g' : PropertyGraph V) (t : ℕ) : Prop where
  vertexLabels : ∀ name, (g'.schema.vertexId name).isSome = (g.schema.vertexId name).isSome
  edgeLabels : ∀ name, (g'.schema.edgeId name).isSome = (g.schema.edgeId name).isSome
  triplets : ∀ n, (g'.tripletId n).isSome = (g.tripletId n).isSome
  vertexProperties : ∀ name, g'.propertiesOf name = g.propertiesOf name
  edgeProperties : ∀ n,
    (g'.edgeTableOf n).map EdgeTable.properties = (g.edgeTableOf n).map EdgeTable.properties
  vertices : ∀ name, g'.verticesOf name t = g.verticesOf name ts
  outgoing : ∀ n, (g'.outgoingOf n t).Perm (g.outgoingOf n ts)
  incoming : ∀ n, (g'.incomingOf n t).Perm (g.incomingOf n ts)

variable {g : PropertyGraph V} {τ : Triplet}

theorem mem_liveTriplets : τ ∈ g.liveTriplets ↔ g.schema.vertexLabelValid τ.1 = true ∧
      g.schema.vertexLabelValid τ.2.1 = true ∧ g.schema.edgeLabelValid τ.2.2 = true ∧
      g.exist τ = true := by
  obtain ⟨src, dst, e⟩ := τ
  simp only [liveTriplets, liveTripletsFrom, mem_flatMap, List.mem_map, mem_filter,
    Schema.mem_liveVertexLabels, Schema.mem_liveEdgeLabels, Prod.mk.injEq]
  constructor
  · rintro ⟨s, hs, d, hd, f, ⟨hf, hex⟩, rfl, rfl, rfl⟩
    exact ⟨hs, hd, hf, hex⟩
  · rintro ⟨hs, hd, he, hex⟩
    exact ⟨src, hs, dst, hd, e, ⟨he, hex⟩, rfl, rfl, rfl⟩

def newTriplet (g : PropertyGraph V) (τ : Triplet) : Triplet :=
  (g.schema.newVertex τ.1, g.schema.newVertex τ.2.1, g.schema.newEdge τ.2.2)

theorem newTriplet_inj {τ' : Triplet} (hs : g.schema.vertexLabelValid τ.1 = true)
    (hd : g.schema.vertexLabelValid τ.2.1 = true) (he : g.schema.edgeLabelValid τ.2.2 = true)
    (h : g.newTriplet τ = g.newTriplet τ') : τ = τ' := by
  simp only [newTriplet, Prod.mk.injEq] at h
  obtain ⟨h₁, h₂, h₃⟩ := h
  exact Prod.ext (Schema.newVertex_inj hs h₁)
    (Prod.ext (Schema.newVertex_inj hd h₂) (Schema.newEdge_inj he h₃))

namespace Consistent

variable (hg : g.Consistent)
include hg

variable {label : ℕ}

theorem vertexLabelIdInternal_eq (h : g.schema.vertexLabelValid label = true) :
    g.schema.compacted.vertexLabelIdInternal (g.schema.vertexName label) =
      .ok (g.schema.newVertex label) := by
  have hid := Schema.vertexId_compacted hg.vertexNames (g.schema.vertexName label)
  rw [Schema.vertexId_of_tomb_empty rfl, Schema.vertexId_vertexName hg.vertexNames h] at hid
  unfold Schema.vertexLabelIdInternal
  rw [hid]
  rfl

theorem edgeLabelIdInternal_eq (h : g.schema.edgeLabelValid label = true) :
    g.schema.compacted.edgeLabelIdInternal (g.schema.edgeName label) =
      .ok (g.schema.newEdge label) := by
  have hid := Schema.edgeId_compacted hg.edgeNames (g.schema.edgeName label)
  rw [Schema.edgeId_of_tomb_empty rfl, Schema.edgeId_edgeName hg.edgeNames h] at hid
  unfold Schema.edgeLabelIdInternal
  rw [hid]
  rfl

theorem renumber_eq (h : τ ∈ g.liveTriplets) :
    renumber g.schema g.schema.compacted τ = .ok (g.newTriplet τ) := by
  obtain ⟨hs, hd, he, -⟩ := mem_liveTriplets.mp h
  unfold renumber
  rw [hg.vertexLabelIdInternal_eq hs, hg.vertexLabelIdInternal_eq hd, hg.edgeLabelIdInternal_eq he]
  rfl

theorem isSome_table (h : label ∈ g.schema.liveVertexLabels) :
    (g.vertexTables[label]?).isSome = true := by
  have hlt : label < g.schema.vertexLabels.length := (mem_kept.mp h).1
  rw [← hg.tables] at hlt
  simp [hlt]

theorem isSome_schema (h : label ∈ g.schema.liveVertexLabels) :
    (g.schema.vertexSchemas[label]?).isSome = true := by
  have hlt : label < g.schema.vertexLabels.length := (mem_kept.mp h).1
  rw [← hg.schemas] at hlt
  simp [hlt]

end Consistent

def renumbered (g : PropertyGraph V) : PropertyGraph V where
  schema := g.schema.compacted
  vertexTables := g.schema.liveVertexLabels.filterMap fun label => g.vertexTables[label]?
  edgeTables := g.liveTriplets.foldl
    (fun tables τ => Function.update tables (g.newTriplet τ) (g.edgeTables τ)) fun _ => none

theorem checkPrimaryKeys_eq_ok {l : List (VertexSchema V)}
    (h : ∀ s ∈ l, s.primaryKey.isSome = true) : checkPrimaryKeys l = .ok () := by
  induction l with
  | nil => rfl
  | cons s l ih =>
    rw [checkPrimaryKeys, if_pos (h s (mem_cons_self ..))]
    exact ih fun s hs => h s (mem_cons_of_mem _ hs)

theorem foldlM_moveEdgeTable (hg : g.Consistent) {l : List Triplet}
    (hl : ∀ τ ∈ l, τ ∈ g.liveTriplets) (tables : Triplet → Option (EdgeTable V)) :
    l.foldlM (g.moveEdgeTable g.schema.compacted) tables = .ok (l.foldl
        (fun tables τ => Function.update tables (g.newTriplet τ) (g.edgeTables τ)) tables) := by
  induction l generalizing tables with
  | nil => rfl
  | cons τ l ih =>
    rw [foldlM_cons, moveEdgeTable, hg.renumber_eq (hl τ (mem_cons_self ..))]
    exact ih (fun τ hτ => hl τ (mem_cons_of_mem _ hτ)) _

theorem compactSchema_eq (hg : g.Consistent) : compactSchema g = some (.ok (), g.renumbered) := by
  have hkeys : checkPrimaryKeys g.schema.compacted.vertexSchemas = .ok () := by
    refine checkPrimaryKeys_eq_ok fun s hs => ?_
    obtain ⟨label, hlabel, hs⟩ := mem_filterMap.mp hs
    exact hg.primaryKey label s (Schema.mem_liveVertexLabels.mp hlabel) hs
  have hmembers : g.compactedMembers g.renumbered.vertexTables = .ok g.renumbered := by
    unfold compactedMembers
    rw [Schema.compact_eq_ok hg.vertexNames hg.edgeNames]
    change (do
      checkPrimaryKeys g.schema.compacted.vertexSchemas
      let edgeTables ← g.liveTriplets.foldlM (g.moveEdgeTable g.schema.compacted) fun _ => none
      pure (mk g.schema.compacted g.renumbered.vertexTables edgeTables)) = _
    rw [hkeys, foldlM_moveEdgeTable hg (fun _ h => h)]
    rfl
  unfold compactSchema
  rw [Call.read_bind, Call.defined_bind_eq_some]
  refine ⟨_, mapM_eq_some_filterMap fun label hlabel => hg.isSome_table hlabel, ?_⟩
  apply Call.update_of_ok
  change Except.map _ (g.compactedMembers g.renumbered.vertexTables) = _
  rw [hmembers]
  rfl

theorem edgeTables_renumbered (h : τ ∈ g.liveTriplets) :
    g.renumbered.edgeTables (g.newTriplet τ) = g.edgeTables τ := by
  refine foldl_update_of_mem _ h fun τ' hτ' heq => ?_
  obtain ⟨hs, hd, he, -⟩ := mem_liveTriplets.mp hτ'
  exact newTriplet_inj hs hd he heq

theorem exists_of_edgeTables_renumbered {t : EdgeTable V}
    (h : g.renumbered.edgeTables τ = some t) : ∃ σ ∈ g.liveTriplets, g.newTriplet σ = τ := by
  by_contra! hno
  have hnone : g.renumbered.edgeTables τ = none := foldl_update_of_notMem _ _ hno
  rw [hnone] at h
  cases h

theorem exist_renumbered {src dst e : ℕ} (hs : g.schema.vertexLabelValid src = true)
    (hd : g.schema.vertexLabelValid dst = true) (he : g.schema.edgeLabelValid e = true) :
    g.renumbered.exist (g.newTriplet (src, dst, e)) = g.exist (src, dst, e) := by
  have hnew : g.renumbered.exist (g.newTriplet (src, dst, e)) =
      (g.renumbered.edgeTables (g.newTriplet (src, dst, e))).isSome := true_and _
  rw [hnew]
  cases hex : g.exist (src, dst, e) with
  | true =>
    rw [edgeTables_renumbered (mem_liveTriplets.mpr ⟨hs, hd, he, hex⟩)]
    simp only [exist, and_eq_true] at hex
    exact hex.2
  | false =>
    rw [isSome_eq_false_iff, isNone_iff_eq_none]
    by_contra hsome
    obtain ⟨t, ht⟩ := ne_none_iff_exists'.mp hsome
    obtain ⟨σ, hσ, heq⟩ := exists_of_edgeTables_renumbered ht
    obtain ⟨h₁, h₂, h₃, hexσ⟩ := mem_liveTriplets.mp hσ
    rw [newTriplet_inj h₁ h₂ h₃ heq, hex] at hexσ
    cases hexσ

theorem tripletId_renumbered (hg : g.Consistent) (n : TripletName) :
    g.renumbered.tripletId n = (g.tripletId n).map g.newTriplet := by
  unfold tripletId
  rw [show g.renumbered.schema = g.schema.compacted from rfl,
    Schema.vertexId_compacted hg.vertexNames, Schema.vertexId_compacted hg.vertexNames,
    Schema.edgeId_compacted hg.edgeNames]
  cases hs : g.schema.vertexId n.1 with
  | none => rfl
  | some src =>
    cases hd : g.schema.vertexId n.2.1 with
    | none => rfl
    | some dst =>
      cases he : g.schema.edgeId n.2.2 with
      | none => rfl
      | some e =>
        have hvalid : g.schema.vertexLabelValid src = true ∧
            g.schema.vertexLabelValid dst = true ∧ g.schema.edgeLabelValid e = true :=
          ⟨(filter_eq_some_iff.mp hs).2, (filter_eq_some_iff.mp hd).2, (filter_eq_some_iff.mp he).2⟩
        have hexist := exist_renumbered hvalid.1 hvalid.2.1 hvalid.2.2
        change (if g.renumbered.exist (g.newTriplet (src, dst, e)) then
          some (g.newTriplet (src, dst, e)) else none) =
          (if g.exist (src, dst, e) then some (src, dst, e) else none).map g.newTriplet
        rw [hexist]
        split <;> rfl

theorem mem_liveTriplets_of_tripletId {n : TripletName} (h : g.tripletId n = some τ) :
    τ ∈ g.liveTriplets := by
  simp only [tripletId, bind_eq_bind, bind_eq_some_iff, ite_none_right_eq_some, some.injEq] at h
  obtain ⟨src, hs, dst, hd, e, he, hex, rfl⟩ := h
  exact mem_liveTriplets.mpr ⟨(filter_eq_some_iff.mp hs).2,
    (filter_eq_some_iff.mp hd).2, (filter_eq_some_iff.mp he).2, hex⟩

end PropertyGraph

end Neug.Storage
