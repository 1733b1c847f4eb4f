import Neug.Execution.EdgeExpansion

/-! The counts of `EdgeExpand` against the relational expansion. -/
namespace Neug.Execution
open List Option

variable {E : Type} {g : StoredGraph E} {p : ExpandParams E}

namespace StoredGraph

def edgesAt (g : StoredGraph E) (p : ExpandParams E) (v : VertexRecord) (τ : LabelTriplet) : ℕ :=
  (if p.dir ≠ .inn ∧ τ.srcLabel = v.label then (g.outgoing τ v.vid).length else 0) +
    if p.dir ≠ .out ∧ τ.dstLabel = v.label then (g.incoming τ v.vid).length else 0

def hopCount (g : StoredGraph E) (p : ExpandParams E) (v : VertexRecord) : ℕ :=
  (g.hopsFrom (g.tables p) p.dir v).length

/-- The rows with the number of their hops: those that have one, or in optional mode all but the
null ones. -/
def degrees (g : StoredGraph E) (p : ExpandParams E) (c : InputColumn g) : List (ℕ × ℕ) :=
  c.store.vertices.zipIdx.filterMap fun x =>
    if x.1.IsNull ∨ p.isOptional = false ∧ g.hopCount p x.1 = 0 then none
    else some (x.2, g.hopCount p x.1)

def total (g : StoredGraph E) (p : ExpandParams E) (c : InputColumn g) : ℕ :=
  ((c.store.vertices.filter fun v => ¬ v.IsNull).map (g.hopCount p)).sum

def Touches (p : ExpandParams E) (labels : Finset ℕ) (τ : LabelTriplet) : Prop :=
  p.dir ≠ .inn ∧ τ.srcLabel ∈ labels ∨ p.dir ≠ .out ∧ τ.dstLabel ∈ labels

theorem length_flatMap_filter {α β : Type} (q : α → Bool) (f : α → List β) (l : List α) :
    ((l.filter q).flatMap f).length = (l.map fun a => if q a then (f a).length else 0).sum := by
  induction l with
  | nil => rfl
  | cons a l ih =>
    rw [map_cons, sum_cons, ← ih]
    by_cases ha : q a <;> simp [ha]

section

variable (labels : List LabelTriplet) (v : VertexRecord)
include labels v

theorem length_hopsFrom :
    (g.hopsFrom labels p.dir v).length = (labels.map (g.edgesAt p v)).sum := by
  unfold edgesAt
  cases p.dir <;> simp only [ReadGraph.hopsFrom, ReadGraph.outHops, ReadGraph.inHops,
    length_append, length_flatMap_filter] <;> simp

end

variable {τ : LabelTriplet} {v : VertexRecord} {c : InputColumn g} {labels : Finset ℕ}

/-- `expand_degree` adds up the hops along all listed triplets, as often as they are listed. -/
theorem degree_eq (hv : v.label ∈ labels) :
    g.degree (degreeViews p labels) v = (p.labels.map (g.edgesAt p v)).sum := by
  unfold degreeViews
  induction p.labels with
  | nil => rfl
  | cons τ rest ih =>
    have hadd : ∀ xs ys : List (ℕ × LabelDir),
        g.degree (xs ++ ys) v = g.degree xs v + g.degree ys v := by
      simp [degree]
    rw [flatMap_cons, hadd, hadd]
    congr 1
    congr 1
    · by_cases hsrc : τ.srcLabel = v.label
      · have hmem : τ.srcLabel ∈ labels := hsrc ▸ hv
        by_cases hdir : p.dir = .inn <;> simp [degree, hsrc, hdir, hv, viewHops]
        rw [← hsrc]
      · split_ifs <;> simp_all [degree]
    · by_cases hdst : τ.dstLabel = v.label
      · by_cases hdir : p.dir = .out <;> simp [degree, hdst, hdir, hv, viewHops]
        rw [← hdst]
      · split_ifs <;> simp_all [degree]

def repeats (l : List LabelTriplet) : List LabelTriplet := l.diff l.dedup

theorem mem_repeats {l : List LabelTriplet} : τ ∈ repeats l ↔ 2 ≤ l.count τ := by
  rw [repeats, ← count_pos_iff, count_diff]
  by_cases hτ : τ ∈ l
  · rw [count_eq_one_of_mem l.nodup_dedup (mem_dedup.mpr hτ)]
    omega
  · rw [count_eq_zero_of_not_mem hτ]
    omega

theorem sum_map_repeats (l : List LabelTriplet) (f : LabelTriplet → ℕ) :
    (l.map f).sum = (l.dedup.map f).sum + ((repeats l).map f).sum := by
  have hcount : ∀ τ ∈ l.dedup, l.dedup.count τ ≤ l.count τ := by
    intro τ hτ
    rw [count_eq_one_of_mem l.nodup_dedup hτ]
    exact count_pos_iff.mpr (mem_dedup.mp hτ)
  have hperm := subperm_append_diff_self_of_count_le hcount
  rw [← (hperm.map f).sum_eq, map_append, sum_append]
  rfl

def TablesExist (g : StoredGraph E) (p : ExpandParams E) (labels : Finset ℕ) : Prop :=
  ∀ τ ∈ p.labels, Touches p labels τ → g.exist τ = true

def RepeatsBare (g : StoredGraph E) (p : ExpandParams E) (c : InputColumn g) : Prop :=
  ∀ v ∈ c.store.vertices, ¬ v.IsNull → ∀ τ, 2 ≤ p.labels.count τ → g.edgesAt p v τ = 0

theorem mem_degreeViews {x : ℕ × LabelDir} :
    x ∈ degreeViews p labels ↔ x.1 ∈ labels ∧ viewTriplet x ∈ p.labels ∧
      (x.2.dir = .out ∧ p.dir ≠ .inn ∨ x.2.dir = .inn ∧ p.dir ≠ .out) := by
  obtain ⟨label, nbr, edge, dir⟩ := x
  rw [degreeViews, mem_flatMap]
  constructor
  · intro h
    obtain ⟨τ, hτ, hx⟩ := h
    rw [mem_append] at hx
    rcases hx with hx | hx
    · split_ifs at hx with hguard
      · cases mem_singleton.mp hx
        exact ⟨hguard.2, hτ, .inl ⟨rfl, hguard.1⟩⟩
      · cases hx
    · split_ifs at hx with hguard
      · cases mem_singleton.mp hx
        exact ⟨hguard.2, hτ, .inr ⟨rfl, hguard.1⟩⟩
      · cases hx
  · intro h
    obtain ⟨hlabel, hτ, ⟨rfl, hdir⟩ | ⟨rfl, hdir⟩⟩ := h
    · exact ⟨_, hτ, by simp_all [viewTriplet]⟩
    · exact ⟨_, hτ, by simp_all [viewTriplet]⟩

theorem exists_view_iff :
    (∃ x ∈ degreeViews p labels, viewTriplet x = τ) ↔ τ ∈ p.labels ∧ Touches p labels τ := by
  constructor
  · intro h
    obtain ⟨⟨label, nbr, edge, dir⟩, hx, rfl⟩ := h
    obtain ⟨hlabel, hτ, ⟨rfl, hdir⟩ | ⟨rfl, hdir⟩⟩ := mem_degreeViews.mp hx
    · exact ⟨hτ, .inl ⟨hdir, hlabel⟩⟩
    · exact ⟨hτ, .inr ⟨hdir, hlabel⟩⟩
  · intro h
    obtain ⟨hτ, ⟨hdir, hsrc⟩ | ⟨hdir, hdst⟩⟩ := h
    · exact ⟨(τ.srcLabel, ⟨τ.dstLabel, τ.edgeLabel, .out⟩),
        mem_degreeViews.mpr ⟨hsrc, hτ, .inl ⟨rfl, hdir⟩⟩, rfl⟩
    · exact ⟨(τ.dstLabel, ⟨τ.srcLabel, τ.edgeLabel, .inn⟩),
        mem_degreeViews.mpr ⟨hdst, hτ, .inr ⟨rfl, hdir⟩⟩, rfl⟩

theorem all_exist_iff : ((degreeViews p labels).all fun x => g.exist (viewTriplet x)) = true ↔
      g.TablesExist p labels := by
  rw [List.all_eq_true]
  constructor
  · intro h τ hτ htouch
    obtain ⟨x, hx, rfl⟩ := exists_view_iff.mpr ⟨hτ, htouch⟩
    exact h x hx
  · intro h x hx
    obtain ⟨hτ, htouch⟩ := exists_view_iff.mp ⟨x, hx, rfl⟩
    exact h _ hτ htouch

theorem degreeViews_eq_nil : degreeViews p labels = [] ↔ ∀ τ ∈ p.labels, ¬ Touches p labels τ := by
  rw [eq_nil_iff_forall_not_mem]
  constructor
  · intro h τ hτ htouch
    obtain ⟨x, hx, -⟩ := exists_view_iff.mpr ⟨hτ, htouch⟩
    exact h x hx
  · intro h x hx
    obtain ⟨hτ, htouch⟩ := exists_view_iff.mp ⟨x, hx, rfl⟩
    exact h _ hτ htouch

theorem edgesAt_of_not_touches
    (hv : v.label ∈ labels) (h : ¬ Touches p labels τ) : g.edgesAt p v τ = 0 := by
  have hout : ¬ (p.dir ≠ .inn ∧ τ.srcLabel = v.label) := fun hs => h (.inl ⟨hs.1, hs.2 ▸ hv⟩)
  have hinn : ¬ (p.dir ≠ .out ∧ τ.dstLabel = v.label) := fun hd => h (.inr ⟨hd.1, hd.2 ▸ hv⟩)
  rw [edgesAt, if_neg hout, if_neg hinn]

theorem sum_map_dedup (l : List LabelTriplet) (f : LabelTriplet → ℕ) :
    (l.dedup.map f).sum = ∑ τ ∈ l.toFinset, f τ := by
  have hset : l.toFinset = l.dedup.toFinset := by
    ext τ
    simp
  rw [hset, sum_toFinset f l.nodup_dedup]

theorem degree_eq_hopCount_add (hex : g.TablesExist p c.labelsSet)
    (hv : v ∈ c.store.vertices) (hnull : ¬ v.IsNull) : g.degree (degreeViews p c.labelsSet) v =
      g.hopCount p v + ((repeats p.labels).map (g.edgesAt p v)).sum := by
  have hlabel := c.mem_labelsSet hv hnull
  have htables : (p.labels.dedup.map (g.edgesAt p v)).sum =
      ((g.tables p).map (g.edgesAt p v)).sum := by
    rw [tables, sum_map_dedup, sum_map_dedup]
    symm
    apply Finset.sum_subset
    · intro τ hτ
      rw [List.mem_toFinset] at hτ ⊢
      exact mem_of_mem_filter hτ
    · intro τ hτ hne
      rw [List.mem_toFinset] at hτ hne
      apply edgesAt_of_not_touches hlabel
      exact fun htouch => hne (mem_filter.mpr ⟨hτ, hex τ hτ htouch⟩)
  rw [degree_eq hlabel, sum_map_repeats, hopCount, length_hopsFrom, htables]

/-- The counts of all rows are right exactly if no repeated triplet has an edge there. -/
theorem repeatsBare_iff (hex : g.TablesExist p c.labelsSet) :
    g.RepeatsBare p c ↔ ∀ v ∈ c.store.vertices, ¬ v.IsNull →
      g.degree (degreeViews p c.labelsSet) v = g.hopCount p v := by
  apply forall₂_congr
  intro v hv
  apply forall_congr'
  intro hnull
  rw [degree_eq_hopCount_add hex hv hnull, add_eq_left, sum_eq_zero_iff]
  constructor
  · intro h n hn
    obtain ⟨τ, hτ, rfl⟩ := mem_map.mp hn
    exact h τ (mem_repeats.mp hτ)
  · intro h τ hτ
    exact h _ (mem_map_of_mem (mem_repeats.mpr hτ))

theorem sum_map_eq_iff {vs : List VertexRecord} {f h : VertexRecord → ℕ}
    (hle : ∀ v ∈ vs, h v ≤ f v) : (vs.map f).sum = (vs.map h).sum ↔ ∀ v ∈ vs, f v = h v := by
  induction vs with
  | nil => simp
  | cons v vs ih =>
    have hhead := hle v mem_cons_self
    have htail : ∀ w ∈ vs, h w ≤ f w := fun w hw => hle w (mem_cons_of_mem v hw)
    have hsum : (vs.map h).sum ≤ (vs.map f).sum := sum_le_sum htail
    rw [map_cons, map_cons, sum_cons, sum_cons, forall_mem_cons, ← ih htail]
    omega

/-- `expand_count` counts the relation. -/
def IsCount (g : StoredGraph E) (p : ExpandParams E) (c : InputColumn g) : Prop :=
  g.expandCount p c = some (g.total p c)

/-- `expand_degree` counts the relation row by row. -/
def IsDegree (g : StoredGraph E) (p : ExpandParams E) (c : InputColumn g) : Prop :=
  g.expandDegree p c = some (g.degrees p c)

theorem isCount_iff (c : InputColumn g) :
    g.IsCount p c ↔ g.TablesExist p c.labelsSet ∧ g.RepeatsBare p c := by
  unfold IsCount expandCount
  by_cases hex : g.TablesExist p c.labelsSet
  · have hmem : ∀ v ∈ c.store.vertices.filter (fun v => ¬ v.IsNull),
        v ∈ c.store.vertices ∧ ¬ v.IsNull := by
      intro v hv
      rwa [mem_filter, decide_eq_true_eq] at hv
    have hle : ∀ v ∈ c.store.vertices.filter (fun v => ¬ v.IsNull),
        g.hopCount p v ≤ g.degree (degreeViews p c.labelsSet) v := by
      intro v hv
      rw [degree_eq_hopCount_add hex (hmem v hv).1 (hmem v hv).2]
      exact Nat.le_add_right _ _
    rw [if_pos (all_exist_iff.mpr hex), some_inj, total, sum_map_eq_iff hle, repeatsBare_iff hex]
    constructor
    · intro h
      refine ⟨hex, fun v hv hnull => h v ?_⟩
      rw [mem_filter, decide_eq_true_eq]
      exact ⟨hv, hnull⟩
    · intro h v hv
      exact h.2 v (hmem v hv).1 (hmem v hv).2
  · rw [if_neg (mt all_exist_iff.mp hex)]
    simp [hex]

/-- Rows that carry their position are the same lists only if they agree row by row. -/
theorem filterMap_zipIdx_eq_iff {vs : List VertexRecord} {f h : VertexRecord × ℕ → Option (ℕ × ℕ)}
    (hf : ∀ x d, f x = some d → d.1 = x.2) (hh : ∀ x d, h x = some d → d.1 = x.2) :
    vs.zipIdx.filterMap f = vs.zipIdx.filterMap h ↔ ∀ x ∈ vs.zipIdx, f x = h x := by
  constructor
  · intro heq x hx
    have hsame : ∀ y ∈ vs.zipIdx, y.2 = x.2 → y = x := by
      intro y hy hyx
      have hx := mem_zipIdx_iff_getElem?.mp hx
      have hy := mem_zipIdx_iff_getElem?.mp hy
      rw [hyx] at hy
      exact Prod.ext (some.inj (hy.symm.trans hx)) hyx
    have hmove : ∀ (f h : VertexRecord × ℕ → Option (ℕ × ℕ)),
        (∀ x d, f x = some d → d.1 = x.2) → (∀ x d, h x = some d → d.1 = x.2) →
        vs.zipIdx.filterMap f = vs.zipIdx.filterMap h → ∀ d, f x = some d → h x = some d := by
      intro f h hf hh heq d hd
      have hmem : d ∈ vs.zipIdx.filterMap h := heq ▸ mem_filterMap.mpr ⟨x, hx, hd⟩
      obtain ⟨y, hy, hyd⟩ := mem_filterMap.mp hmem
      rw [← hsame y hy ((hh y d hyd).symm.trans (hf x d hd))]
      exact hyd
    apply ext
    intro d
    exact ⟨hmove f h hf hh heq d, hmove h f hh hf heq.symm d⟩
  · intro h
    exact filterMap_congr h

theorem degreeRow_eq_iff {views : List (ℕ × LabelDir)} {x : VertexRecord × ℕ} :
    (g.degreeRow p views x = if x.1.IsNull ∨ p.isOptional = false ∧ g.hopCount p x.1 = 0 then none
      else some (x.2, g.hopCount p x.1)) ↔
      (¬ x.1.IsNull → g.degree views x.1 = g.hopCount p x.1) := by
  unfold degreeRow
  by_cases hnull : x.1.IsNull
  · simp [hnull]
  · cases p.isOptional with
    | true => simp [hnull]
    | false =>
      by_cases hc : g.hopCount p x.1 = 0
      · simp [hc]
      · by_cases hd : g.degree views x.1 = 0
        · simpa [hnull, hc, hd] using Ne.symm hc
        · simp [hnull, hc, hd]

theorem hopCount_of_not_touches (h : ∀ τ ∈ p.labels, ¬ Touches p c.labelsSet τ)
    (hv : v ∈ c.store.vertices) (hnull : ¬ v.IsNull) : g.hopCount p v = 0 := by
  rw [hopCount, length_hopsFrom, sum_eq_zero_iff]
  intro n hn
  obtain ⟨τ, hτ, rfl⟩ := mem_map.mp hn
  exact edgesAt_of_not_touches (c.mem_labelsSet hv hnull) (h τ (mem_tables.mp hτ).1)

theorem isDegree_iff (c : InputColumn g) :
    g.IsDegree p c ↔ (g.TablesExist p c.labelsSet ∧ g.RepeatsBare p c) ∧
      (p.isOptional = true → (∃ τ ∈ p.labels, Touches p c.labelsSet τ) ∨
        ∀ v ∈ c.store.vertices, v.IsNull) := by
  unfold IsDegree expandDegree
  by_cases hex : g.TablesExist p c.labelsSet
  · rw [if_pos (all_exist_iff.mpr hex)]
    by_cases hnil : degreeViews p c.labelsSet = []
    · have htouch := degreeViews_eq_nil.mp hnil
      have hzero : ∀ v ∈ c.store.vertices, ¬ v.IsNull → g.hopCount p v = 0 :=
        fun v hv hnull => hopCount_of_not_touches htouch hv hnull
      have hbare : g.RepeatsBare p c := by
        intro v hv hnull τ hτ
        have hmem : τ ∈ p.labels := count_pos_iff.mp (by omega)
        exact edgesAt_of_not_touches (c.mem_labelsSet hv hnull) (htouch τ hmem)
      have hno : ¬ ∃ τ ∈ p.labels, Touches p c.labelsSet τ := by simpa using htouch
      rw [if_pos (isEmpty_iff.mpr hnil), some_inj, eq_comm, degrees, filterMap_eq_nil_iff]
      constructor
      · intro h
        refine ⟨⟨hex, hbare⟩, fun hopt => .inr fun v hv => ?_⟩
        obtain ⟨i, hi, rfl⟩ := mem_iff_getElem.mp hv
        have hrow := h (c.store.vertices[i], i)
          (mem_zipIdx_iff_getElem?.mpr (getElem?_eq_getElem hi))
        by_contra hnull
        simp [hopt, hnull] at hrow
      · intro h x hx
        rw [if_pos]
        have hv : x.1 ∈ c.store.vertices := mem_of_getElem? (mem_zipIdx_iff_getElem?.mp hx)
        by_cases hnull : x.1.IsNull
        · exact .inl hnull
        · refine .inr ⟨?_, hzero _ hv hnull⟩
          by_contra hopt
          have hall := (h.2 (Bool.eq_true_of_not_eq_false hopt)).resolve_left hno
          exact hnull (hall x.1 hv)
    · have hsome : ∃ τ ∈ p.labels, Touches p c.labelsSet τ := by
        by_contra! hno
        exact hnil (degreeViews_eq_nil.mpr hno)
      rw [if_neg (mt List.isEmpty_iff.mp hnil), some_inj, degrees, filterMap_zipIdx_eq_iff]
      · simp only [degreeRow_eq_iff]
        rw [repeatsBare_iff hex]
        constructor
        · intro h
          refine ⟨⟨hex, fun v hv hnull => ?_⟩, fun _ => .inl hsome⟩
          obtain ⟨i, hi, rfl⟩ := mem_iff_getElem.mp hv
          exact h (c.store.vertices[i], i)
            (mem_zipIdx_iff_getElem?.mpr (getElem?_eq_getElem hi)) hnull
        · intro h x hx
          exact h.1.2 x.1 (mem_of_getElem? (mem_zipIdx_iff_getElem?.mp hx))
      · intro x d hd
        unfold degreeRow at hd
        split_ifs at hd
        exact (congrArg Prod.fst (some.inj hd)).symm
      · intro x d hd
        split_ifs at hd
        exact (congrArg Prod.fst (some.inj hd)).symm
  · rw [if_neg (mt all_exist_iff.mp hex)]
    simp [hex]

/-- `expand_vertex_impl` gives the relational expansion, `expand_degree` its counts by row and
`expand_count` the number of its rows, each exactly under its own condition. -/
theorem edge_expand_iff (g : StoredGraph E) (p : ExpandParams E) :
    (∀ c : ExpandInput g p, g.IsExpansion p c.toInputColumn ↔ g.VertexFits p c.toInputColumn) ∧
    ∀ c : InputColumn g,
      (g.IsDegree p c ↔ (g.TablesExist p c.labelsSet ∧ g.RepeatsBare p c) ∧
        (p.isOptional = true → (∃ τ ∈ p.labels, Touches p c.labelsSet τ) ∨
          ∀ v ∈ c.store.vertices, v.IsNull)) ∧
      (g.IsCount p c ↔ g.TablesExist p c.labelsSet ∧ g.RepeatsBare p c) :=
  ⟨isExpansion_iff, fun c => ⟨isDegree_iff c, isCount_iff c⟩⟩

/-- Vertex labels 0 and 1, each with edges among its own vertices. The only visible edge leads from
vertex 0 to vertex 1 of label 0, and every other list keeps the entry of a deleted edge. -/
def deletedEdges : StoredGraph ℕ where
  toReadGraph := oneEdge
  exist τ := τ = ⟨0, 0, 0⟩ ∨ τ = ⟨1, 1, 0⟩
  labelNum := 2
  outEntries _ _ := 1
  inEntries _ _ := 1
  labelNum_le := by decide
  exist_lt τ h := by
    rcases of_decide_eq_true h with rfl | rfl <;> decide
  outgoing_le τ v := by
    simp only [oneEdge, ReadGraph.ofEdges]
    split_ifs
    · exact (List.length_filter_le _ _).trans (by decide)
    · simp
  incoming_le τ v := by
    simp only [oneEdge, ReadGraph.ofEdges]
    split_ifs
    · exact (List.length_filter_le _ _).trans (by decide)
    · simp

def ofLabelOne : InputColumn deletedEdges where
  store := .single 1 [0]
  isOptional := false
  valid := by decide
  nonNull := by decide
  nullRecord := by decide
  mlLabels := ∅
  labels_lt := by decide
  covers _ h := by cases h

def ofBothLabels : InputColumn deletedEdges where
  store := .multiple [⟨0, 1⟩, ⟨1, 0⟩]
  isOptional := false
  valid := by decide
  nonNull := by decide
  nullRecord := by decide
  mlLabels := {0, 1}
  labels_lt := by decide
  covers vs h := by
    cases h
    decide

/-- In optional mode a column that no triplet leads away from loses its row, and so do vertices
whose edges are all deleted. A triplet that is listed twice is counted twice. -/
theorem optional_rows_lost :
    deletedEdges.expandVertexImpl ⟨[⟨0, 0, 0⟩], .out, true, none⟩ ofLabelOne = some [] ∧
      deletedEdges.expansion ⟨[⟨0, 0, 0⟩], .out, true, none⟩ ofLabelOne = [(0, none)] ∧
      deletedEdges.expandDegree ⟨[⟨0, 0, 0⟩], .out, true, none⟩ ofLabelOne = some [] ∧
      deletedEdges.degrees ⟨[⟨0, 0, 0⟩], .out, true, none⟩ ofLabelOne = [(0, 0)] ∧
      deletedEdges.expandVertexImpl ⟨[⟨0, 0, 0⟩, ⟨1, 1, 0⟩], .out, true, none⟩ ofBothLabels =
        some [] ∧
      deletedEdges.expansion ⟨[⟨0, 0, 0⟩, ⟨1, 1, 0⟩], .out, true, none⟩ ofBothLabels =
        [(0, none), (1, none)] ∧
      deletedEdges.expandCount ⟨[⟨0, 0, 0⟩, ⟨0, 0, 0⟩], .inn, false, none⟩ ofBothLabels = some 2 ∧
      deletedEdges.total ⟨[⟨0, 0, 0⟩, ⟨0, 0, 0⟩], .inn, false, none⟩ ofBothLabels = 1 := by
  decide +kernel

end StoredGraph

end Neug.Execution
