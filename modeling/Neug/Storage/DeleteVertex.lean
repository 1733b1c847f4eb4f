import Neug.Storage.PropertyGraph
import Neug.Storage.VertexRemoval

/-! `PropertyGraph::DeleteVertex`: the tables at the label of the vertex are walked one after
another. A table whose destinations have the label is walked with `is_src`, one whose sources have
it without, so only the tables from the label to itself are walked on the right sides. -/
namespace Neug.Storage
open Neug.Lib List Option Function EdgeTable

variable {V : Type}

theorem VertexTimestamp.removeVertex_ok {x : VertexTimestamp} {v ts : ℕ}
    (h : x.isVertexValid v ts = some true) (hts : ts < deletedTimestamp) :
    ∃ old, (x.removeVertex v).2 = .ok old := by
  have hsize := x.size
  unfold isVertexValid at h
  by_cases hmax : x.maxVertexNum < v
  · simp [hmax] at h
  · rw [if_neg hmax] at h
    by_cases hinit : x.initVertexNum ≤ v
    · rw [if_pos hinit] at h
      obtain ⟨old, hold, hle⟩ := map_eq_some_iff.mp h
      have hlt := (List.getElem?_eq_some_iff.mp hold).1
      have hne : old ≠ deletedTimestamp := by
        have := of_decide_eq_true hle
        omega
      refine ⟨old, ?_⟩
      simp [removeVertex, hinit, hold, hne, show ¬ x.maxVertexNum ≤ v by omega]
    · exact ⟨0, by simp [removeVertex, hinit, show ¬ x.maxVertexNum ≤ v by omega]⟩

theorem VertexTable.deleteVertex_ok {t : VertexTable V} {lid ts : ℕ} {valid : Bool}
    (h : t.isValidLid lid ts = some valid) (hts : ts < deletedTimestamp) :
    ∃ t', VertexTable.deleteVertex lid ts t = some (.ok (), t') := by
  cases valid with
  | false =>
    refine ⟨t, ?_⟩
    simp only [deleteVertex, Call.bind_apply, Call.read, h]
    rfl
  | true =>
    have hvalid : t.tracker.isVertexValid lid ts = some true := by
      unfold isValidLid at h
      split_ifs at h with hlid
      · exact h
      · cases h
    obtain ⟨old, hold⟩ := t.tracker.removeVertex_ok hvalid hts
    refine ⟨{ t with tracker := (t.tracker.removeVertex lid).1 }, ?_⟩
    simp only [deleteVertex, Call.bind_apply, Call.read, Call.defined, h, map_some,
      ↓reduceIte, onTracker, hold]
    rfl

namespace EdgeTable

variable [PropertyValue V]

def deleteWalks (past : Past) (lid ts : ℕ) : List Bool → EdgeCall V Unit
  | [] => pure ()
  | b :: bs => do
    deleteVertex past b lid ts
    deleteWalks past lid ts bs

theorem deleteWalks_cons_ok {past : Past} {lid ts : ℕ} {b : Bool} {bs : List Bool}
    {t t' : EdgeTable V} : deleteWalks past lid ts (b :: bs) t = some (.ok (), t') ↔
      ∃ t₁, deleteVertex past b lid ts t = some (.ok (), t₁) ∧
        deleteWalks past lid ts bs t₁ = some (.ok (), t') := by
  rw [deleteWalks, Call.bind_apply]
  cases deleteVertex past b lid ts t with
  | none => simp
  | some p =>
    obtain ⟨r, t₁⟩ := p
    cases r <;> simp

end EdgeTable

namespace PropertyGraph

variable {g g' : PropertyGraph V} {label lid ts : ℕ} {past : Triplet → EdgeTable.Past}
  {walks : List (Triplet × Bool)} {τ : Triplet} {t : EdgeTable V}

def walksOf (walks : List (Triplet × Bool)) (τ : Triplet) : List Bool :=
  (walks.filter fun w => w.1 = τ).map Prod.snd

theorem flatMap_eq_of_unique {α β : Type} {l : List α} {f : α → List β} {x : α} (hl : l.Nodup)
    (hx : x ∈ l) (h : ∀ y ∈ l, y ≠ x → f y = []) : l.flatMap f = f x := by
  induction l with
  | nil => cases hx
  | cons y l ih =>
    obtain ⟨hy, hl⟩ := nodup_cons.mp hl
    rw [flatMap_cons]
    rcases mem_cons.mp hx with rfl | hx
    · have hrest : l.flatMap f = [] := flatMap_eq_nil_iff.mpr fun z hz =>
        h z (mem_cons_of_mem _ hz) fun hzx => hy (hzx ▸ hz)
      rw [hrest, append_nil]
    · have hfirst : f y = [] := h y mem_cons_self fun hyx => hy (hyx ▸ hx)
      rw [hfirst]
      exact ih hl hx fun z hz => h z (mem_cons_of_mem _ hz)

structure Labelled (g : PropertyGraph V) (τ : Triplet) : Prop where
  src : g.schema.vertexLabelValid τ.1 = true
  dst : g.schema.vertexLabelValid τ.2.1 = true
  edge : τ.2.2 < g.schema.edgeLabels.length

/-- The walks over a table: with `is_src` if its destinations have the label, then without if its
sources have it. -/
theorem walksOf_incidentWalks (hτ : g.hasEdgeLabel τ = true)
    (hlabels : τ.1 = label ∨ τ.2.1 = label → g.Labelled τ) : walksOf (g.incidentWalks label) τ =
      (if τ.2.1 = label then [true] else []) ++ if τ.1 = label then [false] else [] := by
  obtain ⟨a, b, e⟩ := τ
  have hpair : ∀ i j, walksOf
      ((if g.hasEdgeLabel (i, label, j) then [((i, label, j), true)] else []) ++
        if g.hasEdgeLabel (label, i, j) then [((label, i, j), false)] else []) (a, b, e) =
      (if (i, label, j) = (a, b, e) then [true] else []) ++
        if (label, i, j) = (a, b, e) then [false] else [] := by
    intro i j
    have hone : ∀ (σ : Triplet) flag,
        walksOf (if g.hasEdgeLabel σ then [(σ, flag)] else []) (a, b, e) =
          if σ = (a, b, e) then [flag] else [] := by
      intro σ flag
      by_cases hσ : σ = (a, b, e)
      · subst hσ
        simp [walksOf, hτ]
      · rw [if_neg hσ]
        split_ifs <;> simp [walksOf, hσ]
    rw [walksOf, filter_append, map_append]
    exact congrArg₂ _ (hone _ _) (hone _ _)
  have hwalks : walksOf (g.incidentWalks label) (a, b, e) =
      ((range g.schema.vertexLabels.length).filter g.schema.vertexLabelValid).flatMap
        fun i => (range g.schema.edgeLabels.length).flatMap fun j =>
          (if (i, label, j) = (a, b, e) then [true] else []) ++
            if (label, i, j) = (a, b, e) then [false] else [] := by
    simp only [← hpair, walksOf, incidentWalks, filter_flatMap, map_flatMap]
  rw [hwalks]
  by_cases htouch : a = label ∨ b = label
  · obtain ⟨hsrc, hdst, hedge⟩ := hlabels htouch
    -- only the other label and the label of the edge contribute
    have hi : (if b = label then a else b) ∈
        (range g.schema.vertexLabels.length).filter g.schema.vertexLabelValid := by
      have hmem : ∀ l, g.schema.vertexLabelValid l = true → l ∈
          (range g.schema.vertexLabels.length).filter g.schema.vertexLabelValid := by
        intro l hl
        refine mem_filter.mpr ⟨mem_range.mpr ?_, hl⟩
        exact of_decide_eq_true (Bool.and_eq_true_iff.mp hl).1
      split_ifs
      · exact hmem a hsrc
      · exact hmem b hdst
    rw [flatMap_eq_of_unique (nodup_range.filter _) hi, flatMap_eq_of_unique
      nodup_range (mem_range.mpr hedge)]
    · by_cases hb : b = label
      · subst hb
        by_cases ha : a = b
        · simp [ha]
        · simp [ha]
      · have ha : a = label := htouch.resolve_right hb
        subst ha
        simp [hb]
    · intro j _ hj
      simp [hj]
    · intro i _ hi
      refine flatMap_eq_nil_iff.mpr fun j _ => ?_
      by_cases hb : b = label
      · rw [if_pos hb] at hi
        have ha : ¬ (label = a ∧ i = b) := fun h => hi (h.2.trans (hb.trans h.1))
        simp only [Prod.mk.injEq, hi, false_and, ↓reduceIte, nil_append]
        rw [if_neg fun h => ha ⟨h.1, h.2.1⟩]
      · rw [if_neg hb] at hi
        simp [hi, Ne.symm hb]
  · obtain ⟨ha, hb⟩ := not_or.mp htouch
    rw [if_neg hb, if_neg ha]
    refine flatMap_eq_nil_iff.mpr fun i _ => flatMap_eq_nil_iff.mpr fun j _ => ?_
    simp [Ne.symm ha, Ne.symm hb]

theorem hasEdgeLabel_of_mem_incidentWalks :
    ∀ x ∈ g.incidentWalks label, g.hasEdgeLabel x.1 = true := by
  intro x hx
  obtain ⟨i, -, hx⟩ := mem_flatMap.mp hx
  obtain ⟨j, -, hx⟩ := mem_flatMap.mp hx
  rcases mem_append.mp hx with hx | hx
  all_goals
    split_ifs at hx with h
    · rw [mem_singleton.mp hx]
      exact h
    · cases hx

variable [PropertyValue V]

/-- Where the walks over each table get through, so does the whole. -/
theorem deleteIncident_ok {f : Triplet → EdgeTable V}
    (hwalks : ∀ x ∈ walks, g.hasEdgeLabel x.1 = true) (h : ∀ τ t, g.edgeTables τ = some t →
      deleteWalks (past τ) lid ts (walksOf walks τ) t = some (.ok (), f τ)) :
    deleteIncident past lid ts walks g =
      some (.ok (), { g with edgeTables := fun τ => (g.edgeTables τ).map fun _ => f τ }) := by
  induction walks generalizing g with
  | nil =>
    have hsame : (fun τ => (g.edgeTables τ).map fun _ => f τ) = g.edgeTables := by
      funext τ
      cases ht : g.edgeTables τ with
      | none => rfl
      | some t =>
        obtain ⟨-, hf⟩ := Prod.mk.inj (some.inj (h τ t ht))
        rw [map_some, ← hf]
    rw [hsame]
    rfl
  | cons x walks ih =>
    obtain ⟨σ, b⟩ := x
    obtain ⟨t, ht⟩ := isSome_iff_exists.mp (hwalks (σ, b) mem_cons_self)
    have hfirst := h σ t ht
    have hcons : walksOf ((σ, b) :: walks) σ = b :: walksOf walks σ := by simp [walksOf]
    rw [hcons, deleteWalks_cons_ok] at hfirst
    obtain ⟨t₁, hrun, hrest⟩ := hfirst
    have hnext := ih (g := { g with edgeTables := update g.edgeTables σ (some t₁) }) (fun y hy => by
        have hy' := hwalks y (mem_cons_of_mem _ hy)
        simp only [hasEdgeLabel] at hy' ⊢
        by_cases hσ : y.1 = σ
        · simp [hσ]
        · rwa [update_of_ne hσ])
      (fun τ t' ht' => by
        by_cases hσ : τ = σ
        · subst hσ
          simp only [update_self, some.injEq] at ht'
          exact ht' ▸ hrest
        · simp only [update_of_ne hσ] at ht'
          have hother := h τ t' ht'
          rwa [walksOf, filter_cons_of_neg (by simp [Ne.symm hσ])] at hother)
    rw [deleteIncident, Call.bind_apply, onEdge, ht]
    simp only [bind_some, hrun, map_some, Except.mapError, hnext]
    congr 3
    funext τ
    by_cases hσ : τ = σ
    · subst hσ
      simp [ht]
    · rw [update_of_ne hσ]

theorem deleteIncident_tables (hrun : deleteIncident past lid ts walks g = some (.ok (), g')) :
    (∀ τ t, g.edgeTables τ = some t → ∃ t', g'.edgeTables τ = some t' ∧
      deleteWalks (past τ) lid ts (walksOf walks τ) t = some (.ok (), t')) ∧
      g'.vertexTables = g.vertexTables := by
  induction walks generalizing g with
  | nil =>
    cases hrun
    exact ⟨fun τ t ht => ⟨t, ht, rfl⟩, rfl⟩
  | cons x walks ih =>
    obtain ⟨σ, b⟩ := x
    rw [deleteIncident, Call.bind_apply, onEdge] at hrun
    cases ht : g.edgeTables σ with
    | none => simp [ht] at hrun
    | some t =>
      cases hwalk : EdgeTable.deleteVertex (past σ) b lid ts t with
      | none => simp [ht, hwalk] at hrun
      | some p =>
        obtain ⟨r, t₁⟩ := p
        cases r with
        | error e => simp [ht, hwalk, Except.mapError] at hrun
        | ok u =>
          simp only [ht, bind_some, hwalk] at hrun
          obtain ⟨htables, hvertices⟩ := ih hrun
          refine ⟨fun τ t' ht' => ?_, hvertices⟩
          by_cases hσ : τ = σ
          · subst hσ
            obtain rfl := some.inj (ht.symm.trans ht')
            obtain ⟨t₂, ht₂, hrest⟩ := htables τ t₁ (by simp)
            refine ⟨t₂, ht₂, ?_⟩
            have hcons : walksOf ((τ, b) :: walks) τ = b :: walksOf walks τ := by simp [walksOf]
            rw [hcons]
            exact deleteWalks_cons_ok.mpr ⟨t₁, hwalk, hrest⟩
          · obtain ⟨t₂, ht₂, hrest⟩ := htables τ t' (by simp [hσ, ht'])
            refine ⟨t₂, ht₂, ?_⟩
            rwa [walksOf, filter_cons_of_neg (by simp [Ne.symm hσ])]

/-- What the walks over the table of a triplet need to remove exactly the edges of a vertex. -/
def Spared (past : EdgeTable.Past) (τ : Triplet) (label lid ts : ℕ) (t : EdgeTable V) : Prop :=
  (τ.1 = label → τ.2.1 = label → t.Surrounded past lid ts) ∧
  (τ.1 ≠ label → τ.2.1 = label → t.Crossed past lid ts) ∧
  (τ.1 = label → τ.2.1 ≠ label → t.swap.Crossed past.swap lid ts)

abbrev Incident (τ : Triplet) (label lid src dst : ℕ) : Prop :=
  τ.1 = label ∧ src = lid ∨ τ.2.1 = label ∧ dst = lid

theorem deleteWalks_iff [PartialEq V] {past : EdgeTable.Past} (τ : Triplet) (label : ℕ)
    (hwf : t.WellFormed ts) (hts : ts < invalidTimestamp) :
    (∃ t', deleteWalks past lid ts ((if τ.2.1 = label then [true] else []) ++
        if τ.1 = label then [false] else []) t = some (.ok (), t') ∧
      t.Loses t' (Incident τ label lid) ts) ↔ Spared past τ label lid ts t := by
  by_cases hsrc : τ.1 = label
  · by_cases hdst : τ.2.1 = label
    · have hgone : ∀ v w, Incident τ label lid v w ↔ v = lid ∨ w = lid := by
        simp [Incident, hsrc, hdst]
      have hspared : Spared past τ label lid ts t ↔ t.Surrounded past lid ts := by
        simp [Spared, hsrc, hdst]
      rw [hspared, ← deleteVertex_both_iff hwf hts, if_pos hdst, if_pos hsrc]
      simp only [cons_append, nil_append, deleteWalks_cons_ok, loses_congr hgone]
      constructor
      · rintro ⟨t', ⟨t₁, hrun, t₂, hrun', hend⟩, hloses⟩
        obtain ⟨-, rfl⟩ := Prod.mk.inj (some.inj hend)
        exact ⟨t₁, t₂, hrun, hrun', hloses⟩
      · rintro ⟨t₁, t₂, hrun, hrun', hloses⟩
        exact ⟨t₂, ⟨t₁, hrun, t₂, hrun', rfl⟩, hloses⟩
    · have hgone : ∀ v w, Incident τ label lid v w ↔ v = lid := by
        simp [Incident, hsrc, hdst]
      have hspared : Spared past τ label lid ts t ↔ t.swap.Crossed past.swap lid ts := by
        simp [Spared, hsrc, hdst]
      rw [hspared, if_neg hdst, if_pos hsrc]
      refine .trans ?_ (deleteVertex_crossed_iff false hwf hts)
      simp only [nil_append, deleteWalks_cons_ok, loses_congr hgone]
      constructor
      · rintro ⟨t', ⟨t₁, hrun, hend⟩, hloses⟩
        obtain ⟨-, rfl⟩ := Prod.mk.inj (some.inj hend)
        exact ⟨t₁, hrun, hloses.swap⟩
      · rintro ⟨t₁, hrun, hloses⟩
        exact ⟨t₁, ⟨t₁, hrun, rfl⟩, hloses.swap⟩
  · by_cases hdst : τ.2.1 = label
    · have hgone : ∀ v w, Incident τ label lid v w ↔ w = lid := by
        simp [Incident, hsrc, hdst]
      have hspared : Spared past τ label lid ts t ↔ t.Crossed past lid ts := by
        simp [Spared, hsrc, hdst]
      rw [hspared, if_pos hdst, if_neg hsrc]
      refine .trans ?_ (deleteVertex_crossed_iff true hwf hts)
      simp only [append_nil, deleteWalks_cons_ok, loses_congr hgone]
      constructor
      · rintro ⟨t', ⟨t₁, hrun, hend⟩, hloses⟩
        obtain ⟨-, rfl⟩ := Prod.mk.inj (some.inj hend)
        exact ⟨t₁, hrun, hloses⟩
      · rintro ⟨t₁, hrun, hloses⟩
        exact ⟨t₁, ⟨t₁, hrun, rfl⟩, hloses⟩
    · have hkept : t.Loses t (Incident τ label lid) ts := by
        intro at' _ _
        simp [hsrc, hdst]
      simp only [Spared, hsrc, hdst, false_implies, implies_true, and_self, iff_true]
      exact ⟨t, rfl, hkept⟩

/-- The edges of a vertex have disappeared from both views of every table, for readers from `ts`
on, and no other edge has. -/
def RemovesIncident (g g' : PropertyGraph V) (label lid ts : ℕ) : Prop :=
  ∀ τ t, g.edgeTables τ = some t → ∃ t', g'.edgeTables τ = some t' ∧
    t.Loses t' (Incident τ label lid) ts

end PropertyGraph

def peopleAndCities (σ : Triplet) (t : EdgeTable ℕ) : PropertyGraph ℕ where
  schema := ⟨["person", "city"], ∅, [⟨some (.int64, "id"), []⟩, ⟨some (.int64, "id"), []⟩],
    ["edge"], ∅, ∅⟩
  vertexTables := [⟨[10, 11], 2, some .empty, ⟨0, 2, [1, 1], none, rfl⟩⟩,
    ⟨[20, 21], 2, some .empty, ⟨0, 2, [1, 1], none, rfl⟩⟩]
  edgeTables := fun τ => if τ = σ then some t else none

def thereAndBack : EdgeTable ℕ :=
  { EdgeTable.create [] with
    outCsr := ⟨[[⟨1, 1, .empty⟩], [⟨0, 1, .empty⟩]], 2, 0⟩
    inCsr := ⟨[[⟨1, 1, .empty⟩], [⟨0, 1, .empty⟩]], 2, 0⟩ }

theorem wellFormed_thereAndBack : thereAndBack.WellFormed 2 := by
  refine ⟨fun v w => ?_, fun v => ?_, fun v => ?_, fun v => ?_, fun v => ?_, fun v => ?_,
    fun v => ?_⟩
  · rcases v with _ | _ | v <;> rcases w with _ | _ | w <;> rfl
  all_goals
    rcases v with _ | _ | v
    all_goals simp [thereAndBack, create, MutableCsr.list, Fits, int32Max]

theorem surrounded_thereAndBack (past : EdgeTable.Past) : thereAndBack.Surrounded past 0 2 := by
  refine ⟨by decide, by decide, fun w => ?_, fun v _ => ?_⟩
  all_goals
    apply answered_of_length_le_one
    exact (length_candidates_le _ _ _).trans (by decide)

def withoutPerson (t : EdgeTable ℕ) : Option (EdgeTable ℕ) := do
  let p ← PropertyGraph.deleteVertex (fun _ => ⟨fun _ => 0, fun _ => 0⟩) 0 0 4
    (peopleAndCities (0, 1, 0) t)
  p.2.edgeTables (0, 1, 0)

section

open EdgeTable

end

end Neug.Storage
