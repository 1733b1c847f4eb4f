import Neug.Storage.Csr
import Neug.Storage.DeleteVertex
import Neug.Storage.ValidityMap

/-! `PropertyGraph::BatchDeleteVertices`, over edge tables with CSRs of any kind. -/
namespace Neug.Storage
open Neug.Lib List Option Function

variable {V D : Type}

def maxTimestamp : ℕ := 2 ^ 32 - 2

theorem ValidityMap.validAt_mono {f : ValidityMap} {u t t' : ℕ} (ht : t ≤ t')
    (h : f.validAt u t = true) : f.validAt u t' = true := by
  unfold validAt at h ⊢
  cases hf : f u with
  | none => simp [hf] at h
  | some ts =>
    rw [hf] at h
    exact decide_eq_true ((of_decide_eq_true h).trans ht)

theorem VertexTimestamp.maxVertexNum_removeVertex (x : VertexTimestamp) (v : ℕ) :
    (x.removeVertex v).1.maxVertexNum = x.maxVertexNum := by
  unfold removeVertex
  split_ifs
  · rfl
  · simp only
    split_ifs <;> rfl
  · rfl

namespace VertexTable

/-- `BatchDeleteVertices`. A vertex that is not valid at the largest timestamp is skipped. -/
def batchDeleteVertices : List ℕ → VertexCall V Unit
  | [] => pure ()
  | v :: vids => do
    deleteVertex v maxTimestamp
    batchDeleteVertices vids

def Tracked (t : VertexTable V) : Prop := t.keys.length ≤ t.tracker.maxVertexNum

variable {t : VertexTable V} {ts : ℕ}

theorem Tracked.isValidLid_eq (h : t.Tracked) (u : ℕ) (hts : ts < deletedTimestamp) :
    t.isValidLid u ts = some (decide (u < t.keys.length) && t.tracker.entry.validAt u ts) := by
  unfold Tracked at h
  unfold isValidLid
  by_cases hu : u < t.keys.length
  · rw [VertexTimestamp.isVertexValid_eq (by omega) hts]
    simp [hu]
  · simp [hu]

theorem Tracked.deleteVertex (h : t.Tracked) (v : ℕ) :
    ∃ t', VertexTable.deleteVertex v maxTimestamp t = some (.ok (), t') ∧ t'.Tracked ∧
      ∀ u ts, ts < deletedTimestamp →
        t'.isValidLid u ts = if u = v then some false else t.isValidLid u ts := by
  have hmax : maxTimestamp < deletedTimestamp := by decide
  have hvalid := h.isValidLid_eq v hmax
  by_cases hv : (decide (v < t.keys.length) && t.tracker.entry.validAt v maxTimestamp) = true
  · have hvertex : t.tracker.isVertexValid v maxTimestamp = some true := by
      rw [hv, isValidLid, if_pos (by simpa using (Bool.and_eq_true_iff.mp hv).1)] at hvalid
      exact hvalid
    obtain ⟨old, hold⟩ := t.tracker.removeVertex_ok hvertex hmax
    have h' : ({ t with tracker := (t.tracker.removeVertex v).1 } : VertexTable V).Tracked := by
      unfold Tracked
      rw [VertexTimestamp.maxVertexNum_removeVertex]
      exact h
    refine ⟨{ t with tracker := (t.tracker.removeVertex v).1 }, ?_, h', fun u ts hts => ?_⟩
    · simp only [VertexTable.deleteVertex, Call.bind_apply, Call.read, Call.defined, hvalid, hv,
        map_some, ↓reduceIte, onTracker, hold]
      rfl
    · rw [h'.isValidLid_eq u hts, h.isValidLid_eq u hts, VertexTimestamp.entry_removeVertex]
      by_cases hu : u = v
      · simp [hu, ValidityMap.validAt, ValidityMap.set]
      · simp [hu, ValidityMap.validAt, ValidityMap.set]
  · refine ⟨t, ?_, h, fun u ts hts => ?_⟩
    · simp only [VertexTable.deleteVertex, Call.bind_apply, Call.read, hvalid, hv]
      rfl
    · by_cases hu : u = v
      · subst hu
        rw [if_pos rfl, h.isValidLid_eq u hts, some_inj, Bool.eq_false_iff]
        intro hnow
        obtain ⟨hlen, hat⟩ := Bool.and_eq_true_iff.mp hnow
        have hle : ts ≤ maxTimestamp := by
          unfold deletedTimestamp at hts
          unfold maxTimestamp
          omega
        exact hv (Bool.and_eq_true_iff.mpr ⟨hlen, ValidityMap.validAt_mono hle hat⟩)
      · rw [if_neg hu]

theorem Tracked.batchDeleteVertices (h : t.Tracked) (vids : List ℕ) :
    ∃ t', VertexTable.batchDeleteVertices vids t = some (.ok (), t') ∧ t'.Tracked ∧
      ∀ u ts, ts < deletedTimestamp →
        t'.isValidLid u ts = if u ∈ vids then some false else t.isValidLid u ts := by
  induction vids generalizing t with
  | nil => exact ⟨t, rfl, h, by simp⟩
  | cons v vids ih =>
    obtain ⟨t₁, hrun, h₁, hvalid₁⟩ := h.deleteVertex v
    obtain ⟨t', hrest, h', hvalid⟩ := ih h₁
    refine ⟨t', ?_, h', fun u ts hts => ?_⟩
    · rw [VertexTable.batchDeleteVertices, Call.bind_apply, hrun]
      exact hrest
    · rw [hvalid u ts hts, hvalid₁ u ts hts]
      by_cases hu : u = v <;> by_cases hmem : u ∈ vids <;> simp [hu]

end VertexTable

structure MixedGraph (V D : Type) where
  schema : Schema V
  vertexTables : List (VertexTable V)
  edgeTables : Triplet → Option (Csr D × Csr D)

namespace MixedGraph

def hasEdgeLabel (g : MixedGraph V D) (τ : Triplet) : Bool := (g.edgeTables τ).isSome

/-- `EdgeTable::BatchDeleteVertices` on the table of a triplet. -/
def deleteOnEdge (τ : Triplet) (srcSet dstSet : Finset ℕ) :
    Call (MixedGraph V D) GraphError Unit := fun g =>
  (g.edgeTables τ).bind fun t =>
    (t.1.batchDeleteVertices srcSet dstSet).bind fun out =>
      (t.2.batchDeleteVertices dstSet srcSet).map fun inc =>
        (.ok (), { g with edgeTables := Function.update g.edgeTables τ (some (out, inc)) })

/-- The tables that `BatchDeleteVertices` visits, with the sets it passes. -/
def deleteRequests (g : MixedGraph V D) (label : ℕ) (vids : Finset ℕ) :
    List (Triplet × Finset ℕ × Finset ℕ) :=
  ((List.range g.schema.vertexLabels.length).filter g.schema.vertexLabelValid).flatMap fun i =>
    (List.range g.schema.edgeLabels.length).flatMap fun j =>
      (if g.hasEdgeLabel (i, label, j) then [((i, label, j), ∅, vids)] else []) ++
      if g.hasEdgeLabel (label, i, j) then [((label, i, j), vids, ∅)] else []

def deleteOnEdges : List (Triplet × Finset ℕ × Finset ℕ) → Call (MixedGraph V D) GraphError Unit
  | [] => pure ()
  | (τ, srcSet, dstSet) :: rest => do
    deleteOnEdge τ srcSet dstSet
    deleteOnEdges rest

def onVertex {α : Type} (label : ℕ) (m : VertexCall V α) :
    Call (MixedGraph V D) GraphError α := fun g =>
  (g.vertexTables[label]?).bind fun t => (m t).map fun r =>
    (r.1.mapError .vertex, { g with vertexTables := g.vertexTables.set label r.2 })

def batchDeleteVertices (label : ℕ) (vids : List ℕ) : Call (MixedGraph V D) GraphError Unit := do
  onVertex label (VertexTable.batchDeleteVertices vids)
  let g ← Call.read
  deleteOnEdges (g.deleteRequests label vids.toFinset)

structure Stands (g : MixedGraph V D) (τ : Triplet) : Prop where
  table : g.hasEdgeLabel τ = true
  src : g.schema.vertexLabelValid τ.1 = true
  dst : g.schema.vertexLabelValid τ.2.1 = true
  edge : g.schema.edgeLabelValid τ.2.2 = true

abbrev Touches (τ : Triplet) (label : ℕ) (vids : Finset ℕ) (src dst : ℕ) : Prop :=
  τ.1 = label ∧ src ∈ vids ∨ τ.2.1 = label ∧ dst ∈ vids

variable {g g' : MixedGraph V D}

theorem deleteOnEdges_ok {requests : List (Triplet × Finset ℕ × Finset ℕ)}
    (hordered : ∀ τ p, g.edgeTables τ = some p → p.1.Ordered ∧ p.2.Ordered)
    (hhas : ∀ r ∈ requests, g.hasEdgeLabel r.1 = true) :
    ∃ g', deleteOnEdges requests g = some (.ok (), g') ∧ g'.vertexTables = g.vertexTables ∧
      ∀ τ p, g.edgeTables τ = some p → ∃ p', g'.edgeTables τ = some p' ∧
        ∀ t < invalidTimestamp,
          p'.1.view t = (p.1.view t).filter (fun e => ∀ r ∈ requests, r.1 = τ →
            e.1 ∉ r.2.1 ∧ e.2.1 ∉ r.2.2) ∧
          p'.2.view t = (p.2.view t).filter (fun e => ∀ r ∈ requests, r.1 = τ →
            e.2.1 ∉ r.2.1 ∧ e.1 ∉ r.2.2) := by
  induction requests generalizing g with
  | nil => exact ⟨g, rfl, rfl, fun τ p hp => ⟨p, hp, by simp⟩⟩
  | cons r requests ih =>
    obtain ⟨σ, srcSet, dstSet⟩ := r
    obtain ⟨q, hq⟩ := isSome_iff_exists.mp (hhas _ mem_cons_self)
    obtain ⟨out, hout, houtOrdered, houtView⟩ :=
      Csr.view_batchDeleteVertices (hordered σ q hq).1 srcSet dstSet
    obtain ⟨inc, hinc, hincOrdered, hincView⟩ :=
      Csr.view_batchDeleteVertices (hordered σ q hq).2 dstSet srcSet
    have hfirst : deleteOnEdge σ srcSet dstSet g = some (.ok (),
        { g with edgeTables := update g.edgeTables σ (some (out, inc)) }) := by
      rw [deleteOnEdge, hq, bind_some, hout, bind_some, hinc, map_some]
    have hordered₁ : ∀ τ p, update g.edgeTables σ (some (out, inc)) τ = some p →
        p.1.Ordered ∧ p.2.Ordered := by
      intro τ p hp
      by_cases hτ : τ = σ
      · subst hτ
        rw [update_self, some_inj] at hp
        exact hp ▸ ⟨houtOrdered, hincOrdered⟩
      · rw [update_of_ne hτ] at hp
        exact hordered τ p hp
    have hhas₁ : ∀ r ∈ requests, (update g.edgeTables σ (some (out, inc)) r.1).isSome := by
      intro r hr
      by_cases hτ : r.1 = σ
      · rw [hτ, update_self]
        rfl
      · rw [update_of_ne hτ]
        exact hhas r (mem_cons_of_mem _ hr)
    obtain ⟨g', hrest, hvertices, htables⟩ := ih
      (g := { g with edgeTables := update g.edgeTables σ (some (out, inc)) })
      hordered₁ hhas₁
    refine ⟨g', by rw [deleteOnEdges, Call.bind_apply, hfirst]; exact hrest, hvertices,
      fun τ p hp => ?_⟩
    by_cases hτ : τ = σ
    · subst hτ
      obtain rfl := some.inj (hq.symm.trans hp)
      obtain ⟨p', hp', hviews⟩ := htables τ (out, inc) (update_self _ _ _)
      refine ⟨p', hp', fun t ht => ?_⟩
      rw [(hviews t ht).1, (hviews t ht).2, houtView t ht, hincView t ht, List.filter_filter,
        List.filter_filter]
      constructor
      all_goals
        apply filter_congr
        intro e _
        rw [Bool.eq_iff_iff, Bool.and_eq_true, decide_eq_true_iff, decide_eq_true_iff,
          decide_eq_true_iff, forall_mem_cons]
        tauto
    · obtain ⟨p', hp', hviews⟩ := htables τ p (by simp only [update_of_ne hτ, hp])
      refine ⟨p', hp', fun t ht => ?_⟩
      rw [(hviews t ht).1, (hviews t ht).2]
      simp only [forall_mem_cons, Ne.symm hτ, false_implies, true_and]

theorem mem_deleteRequests {label : ℕ} {vids : Finset ℕ} {r : Triplet × Finset ℕ × Finset ℕ} :
    r ∈ g.deleteRequests label vids ↔ g.hasEdgeLabel r.1 = true ∧
      ∃ i j, g.schema.vertexLabelValid i = true ∧ j < g.schema.edgeLabels.length ∧
        (r = ((i, label, j), ∅, vids) ∨ r = ((label, i, j), vids, ∅)) := by
  unfold deleteRequests
  simp only [mem_flatMap, mem_filter, mem_range, mem_append]
  constructor
  · rintro ⟨i, ⟨-, hi⟩, j, hj, hr | hr⟩
    all_goals
      split_ifs at hr with hhas
      · obtain rfl := mem_singleton.mp hr
        exact ⟨hhas, i, j, hi, hj, by simp⟩
      · cases hr
  · rintro ⟨hhas, i, j, hi, hj, rfl | rfl⟩
    · have hlt : i < g.schema.vertexLabels.length :=
        of_decide_eq_true (Bool.and_eq_true_iff.mp hi).1
      exact ⟨i, ⟨hlt, hi⟩, j, hj, .inl (by simp [hhas])⟩
    · have hlt : i < g.schema.vertexLabels.length :=
        of_decide_eq_true (Bool.and_eq_true_iff.mp hi).1
      exact ⟨i, ⟨hlt, hi⟩, j, hj, .inr (by simp [hhas])⟩

/-- The visits of a triplet whose labels stand take the edges at the vertices, from whichever
side. -/
theorem forall_deleteRequests {label : ℕ} {vids : Finset ℕ} {τ : Triplet} (h : g.Stands τ)
    (src dst : ℕ) : (∀ r ∈ g.deleteRequests label vids, r.1 = τ → src ∉ r.2.1 ∧ dst ∉ r.2.2) ↔
      ¬ Touches τ label vids src dst := by
  obtain ⟨a, b, e⟩ := τ
  have hedge : e < g.schema.edgeLabels.length :=
    of_decide_eq_true (Bool.and_eq_true_iff.mp h.edge).1
  constructor
  · rintro hall (⟨rfl, hsrc⟩ | ⟨rfl, hdst⟩)
    · have hr := hall ((a, b, e), vids, ∅) (mem_deleteRequests.mpr
        ⟨h.table, b, e, h.dst, hedge, .inr rfl⟩) rfl
      exact hr.1 hsrc
    · have hr := hall ((a, b, e), ∅, vids) (mem_deleteRequests.mpr
        ⟨h.table, a, e, h.src, hedge, .inl rfl⟩) rfl
      exact hr.2 hdst
  · intro hfar r hr hτ
    obtain ⟨-, i, j, -, -, rfl | rfl⟩ := mem_deleteRequests.mp hr
    · refine ⟨Finset.notMem_empty _, fun hdst => hfar (.inr ⟨?_, hdst⟩)⟩
      rw [← hτ]
    · refine ⟨fun hsrc => hfar (.inl ⟨?_, hsrc⟩), Finset.notMem_empty _⟩
      rw [← hτ]

end MixedGraph

/-- Three people, the last two deleted; friendship in a mutable and in an immutable CSR, and for
each person one town. -/
def peopleAndTowns : MixedGraph ℕ ℕ where
  schema := ⟨["person", "town"], ∅, [⟨some (.int64, "id"), []⟩, ⟨some (.int64, "id"), []⟩],
    ["knows", "livesIn"], ∅, ∅⟩
  vertexTables := [⟨[10, 11, 12], 3, some .empty, ⟨1, 3, [1, deletedTimestamp], none, rfl⟩⟩,
    ⟨[20, 21], 2, some .empty, ⟨2, 2, [], none, rfl⟩⟩]
  edgeTables := fun τ =>
    if τ = (0, 0, 0) then
      some (.mutable ⟨[[⟨1, 1, 5⟩, ⟨0, 1, 6⟩], [⟨0, 2, 7⟩], []], 3, 0⟩,
        .immutable ⟨[⟨0, 6⟩, ⟨1, 7⟩, ⟨0, 5⟩], [2, 1, 0], [some 0, some 2, none], 3, 0⟩)
    else if τ = (0, 1, 1) then
      some (.singleMutable ⟨[⟨1, 1, 8⟩, ⟨0, 2, 9⟩, ⟨0, invalidTimestamp, 0⟩], 2⟩,
        .singleImmutable ⟨[⟨1, 9⟩, ⟨0, 8⟩], 2⟩)
    else none

end Neug.Storage
