import Neug.Execution.EdgeExpand

/-! The loops of `EdgeExpand` against the relational expansion. -/
namespace Neug.Execution
open Neug.Lib List Option

variable {E : Type} {g : StoredGraph E} {p : ExpandParams E}

namespace StoredGraph

theorem mem_tables {τ : LabelTriplet} : τ ∈ g.tables p ↔ τ ∈ p.labels ∧ g.exist τ = true := by
  rw [tables, mem_dedup, mem_filter]

variable {d : LabelDir} {segments : List (ℕ × List ℕ)} {c : InputColumn g} {vs : List VertexRecord}
  {vids : List ℕ} {i label : ℕ} {v : VertexRecord}

theorem mem_getLabelDirs : d ∈ g.getLabelDirs p label ↔
    d.dir = .out ∧ p.dir ≠ .inn ∧ ⟨label, d.nbrLabel, d.edgeLabel⟩ ∈ g.tables p ∨
      d.dir = .inn ∧ p.dir ≠ .out ∧ ⟨d.nbrLabel, label, d.edgeLabel⟩ ∈ g.tables p := by
  have hmem : d ∈ g.getLabelDirs p label ↔ ∃ τ ∈ g.tables p, d ∈ tripletDirs p label τ := by
    rw [getLabelDirs]
    simp [tables]
  rw [hmem]
  obtain ⟨nbr, edge, dir⟩ := d
  constructor
  · intro h
    obtain ⟨⟨s, t, l⟩, hτ, hd⟩ := h
    rw [tripletDirs, mem_append] at hd
    rcases hd with hd | hd
    · split_ifs at hd with hguard
      · obtain ⟨rfl, hdir⟩ := hguard
        cases mem_singleton.mp hd
        exact .inl ⟨rfl, hdir, hτ⟩
      · cases hd
    · split_ifs at hd with hguard
      · obtain ⟨rfl, hdir⟩ := hguard
        cases mem_singleton.mp hd
        exact .inr ⟨rfl, hdir, hτ⟩
      · cases hd
  · intro h
    rcases h with ⟨rfl, hdir, hτ⟩ | ⟨rfl, hdir, hτ⟩
    · exact ⟨_, hτ, by simp [tripletDirs, hdir]⟩
    · exact ⟨_, hτ, by simp [tripletDirs, hdir]⟩

theorem dir_of_mem_getLabelDirs (h : d ∈ g.getLabelDirs p label) : d.dir = .out ∨ d.dir = .inn := by
  rcases mem_getLabelDirs.mp h with ⟨hd, -⟩ | ⟨hd, -⟩
  · exact .inl hd
  · exact .inr hd

theorem view_of_mem_viewHops {v : ℕ} {h : Hop E}
    (hd : d.dir = .out ∨ d.dir = .inn) (hh : h ∈ g.viewHops label d v) :
    d = ⟨h.vertex.label, h.edgeLabel, h.dir⟩ := by
  obtain ⟨nbr, edge, dir⟩ := d
  rcases hd with rfl | rfl
  · rw [viewHops, if_pos rfl] at hh
    obtain ⟨e, -, rfl⟩ := mem_map.mp hh
    rfl
  · rw [viewHops, if_neg (by simp)] at hh
    obtain ⟨e, -, rfl⟩ := mem_map.mp hh
    rfl

theorem nodup_viewHops (label v : ℕ) (d : LabelDir) : (g.viewHops label d v).Nodup := by
  unfold viewHops
  split_ifs
  · exact (g.nodup_outgoing _ v).map fun _ _ heq => (Hop.mk.inj heq).2.2.2
  · exact (g.nodup_incoming _ v).map fun _ _ heq => (Hop.mk.inj heq).2.2.2

theorem mem_flatMap_viewHops {h : Hop E} :
    h ∈ (g.getLabelDirs p v.label).flatMap (fun d => g.viewHops v.label d v.vid) ↔
      g.IsHop (g.tables p) p.dir v h := by
  rw [mem_flatMap]
  constructor
  · intro hmem
    obtain ⟨d, hd, hh⟩ := hmem
    rcases mem_getLabelDirs.mp hd with ⟨hout, hdir, hτ⟩ | ⟨hinn, hdir, hτ⟩
    · rw [viewHops, if_pos hout] at hh
      obtain ⟨e, he, rfl⟩ := mem_map.mp hh
      obtain ⟨he, hsrc⟩ := g.mem_outgoing.mp he
      exact .inl ⟨rfl, hdir, hτ, he, hsrc, rfl⟩
    · rw [viewHops, if_neg (by rw [hinn]; decide)] at hh
      obtain ⟨e, he, rfl⟩ := mem_map.mp hh
      obtain ⟨he, hdst⟩ := g.mem_incoming.mp he
      exact .inr ⟨rfl, hdir, hτ, he, hdst, rfl⟩
  · intro hhop
    rcases hhop with ⟨hd, hdir, hτ, he, hsrc, hdst⟩ | ⟨hd, hdir, hτ, he, hdst, hsrc⟩
    · refine ⟨⟨h.vertex.label, h.edgeLabel, .out⟩, mem_getLabelDirs.mpr (.inl ⟨rfl, hdir, hτ⟩), ?_⟩
      refine mem_map.mpr ⟨h.payload, g.mem_outgoing.mpr ⟨he, hsrc⟩, ?_⟩
      rw [hdst, ← hd]
    · refine ⟨⟨h.vertex.label, h.edgeLabel, .inn⟩, mem_getLabelDirs.mpr (.inr ⟨rfl, hdir, hτ⟩), ?_⟩
      refine mem_map.mpr ⟨h.payload, g.mem_incoming.mpr ⟨he, hdst⟩, ?_⟩
      rw [hsrc, ← hd]

theorem viewHops_perm (v : VertexRecord) :
    ((g.getLabelDirs p v.label).flatMap fun d => g.viewHops v.label d v.vid).Perm
      (g.hopsFrom (g.tables p) p.dir v) := by
  rw [perm_ext_iff_of_nodup]
  · intro h
    rw [mem_flatMap_viewHops, g.mem_hopsFrom]
  · rw [nodup_flatMap]
    refine ⟨fun d _ => nodup_viewHops v.label v.vid d, ?_⟩
    refine Pairwise.imp_of_mem ?_ (nodup_dedup _)
    intro d d' hd hd' hne h hh hh'
    have hview := view_of_mem_viewHops (dir_of_mem_getLabelDirs hd) hh
    have hview' := view_of_mem_viewHops (dir_of_mem_getLabelDirs hd') hh'
    exact hne (hview.trans hview'.symm)
  · exact g.nodup_hopsFrom (nodup_dedup _) p.dir v

theorem expandView_perm (v : VertexRecord) :
    ((g.getLabelDirs p v.label).flatMap (g.expandView p v)).Perm
      ((g.matching p v).map Hop.vertex) := by
  have hpull : (g.getLabelDirs p v.label).flatMap (g.expandView p v) =
      (((g.getLabelDirs p v.label).flatMap fun d => g.viewHops v.label d v.vid).filter
        (passes p v)).map Hop.vertex := by
    rw [filter_flatMap, map_flatMap]
    rfl
  rw [hpull]
  exact ((viewHops_perm v).filter _).map _

theorem neighbours_of_some (h : c.store.getVertex i = some v) :
    g.neighbours p c i = if v.IsNull then [] else (g.matching p v).map Hop.vertex := by
  by_cases hnull : v.IsNull <;> simp [neighbours, h, hnull, Option.filter]

theorem padded_perm {bs bs' : List VertexRecord} (h : bs.Perm bs') :
    (padded i bs).Perm (padded i bs') := by
  have hempty : bs.isEmpty = bs'.isEmpty := by
    rw [Bool.eq_iff_iff, List.isEmpty_iff, List.isEmpty_iff]
    exact ⟨fun hb => (hb ▸ h).nil_eq.symm, fun hb => (hb ▸ h).eq_nil⟩
  unfold padded
  rw [hempty]
  split_ifs
  · exact .refl _
  · exact h.map _

theorem collect_perm {visits : List (Visit VertexRecord)} (hlt : ∀ x ∈ visits, x.1 < c.size)
    (hu : ∀ x ∈ visits, ∀ y ∈ visits, x.1 = y.1 → x.2 = none → y.2 = none)
    (hfound : ∀ i < c.size, (found visits i).Perm (g.neighbours p c i)) :
    (collect p visits c.size).Perm (g.expansion p c) := by
  unfold collect expansion
  split_ifs
  · apply (finish_perm hlt hu).trans
    apply List.Perm.flatMap_left
    intro i hi
    exact padded_perm (hfound i (mem_range.mp hi))
  · apply (emitted_perm hlt).trans
    apply List.Perm.flatMap_left
    intro i hi
    exact (hfound i (mem_range.mp hi)).map _

theorem found_dirVisits (hv : vids[i]? = some v.vid) (hlabel : ¬ v.IsNull → v.label = label) :
    (found (g.dirVisits p label vids) i).Perm
      (if v.IsNull then [] else (g.matching p v).map Hop.vertex) := by
  have hfound := found_passes (g.getLabelDirs p label)
    (fun d x => if x = nullVid then none else some (g.expandView p ⟨label, x⟩ d)) vids 0 i
  rw [dirVisits, hfound, Nat.sub_zero, hv]
  by_cases hnull : v.IsNull
  · have hvid : v.vid = nullVid := hnull
    simp [hvid, hnull]
  · have hvid : v.vid ≠ nullVid := hnull
    obtain rfl := hlabel hnull
    simp only [bind_some, if_neg hvid, if_neg hnull]
    exact expandView_perm v

theorem lt_of_mem_dirVisits : ∀ x ∈ g.dirVisits p label vids, x.1 < vids.length := by
  intro x hx
  obtain ⟨d, -, hx⟩ := mem_flatMap.mp hx
  obtain ⟨y, hy, rfl⟩ := mem_map.mp hx
  exact snd_lt_of_mem_zipIdx hy

theorem uniform_dirVisits :
    ∀ x ∈ g.dirVisits p label vids, ∀ y ∈ g.dirVisits p label vids, x.1 = y.1 → x.2 = none →
      y.2 = none := by
  intro x hx y hy hxy hnone
  obtain ⟨d, -, hx⟩ := mem_flatMap.mp hx
  obtain ⟨⟨v, i⟩, hv, rfl⟩ := mem_map.mp hx
  obtain ⟨d', -, hy⟩ := mem_flatMap.mp hy
  obtain ⟨⟨w, j⟩, hw, rfl⟩ := mem_map.mp hy
  subst hxy
  have hsame : v = w := by
    have hv := mem_zipIdx_iff_getElem?.mp hv
    have hw := mem_zipIdx_iff_getElem?.mp hw
    exact some.inj (hv.symm.trans hw)
  have hvid : v = nullVid := by
    by_contra hvid
    simp [hvid] at hnone
  simp [← hsame, hvid]

/-- A listed existing triplet leads away from a label of the column in an allowed direction. -/
def Reaches (g : StoredGraph E) (p : ExpandParams E) (c : InputColumn g) : Prop :=
  g.nbrLabels p c.labelsSet ≠ ∅

theorem nbrLabels_eq_empty {labels : Finset ℕ} :
    g.nbrLabels p labels = ∅ ↔ ∀ l ∈ labels, g.getLabelDirs p l = [] := by
  rw [nbrLabels, ← Finset.not_nonempty_iff_eq_empty]
  simp

theorem not_reaches_iff : ¬ g.Reaches p c ↔ ∀ l ∈ c.labelsSet, g.getLabelDirs p l = [] := by
  rw [Reaches, not_not, nbrLabels_eq_empty]

theorem neighbours_of_not_reaches (h : ¬ g.Reaches p c) (i : ℕ) : g.neighbours p c i = [] := by
  cases hi : c.store.getVertex i with
  | none => simp [neighbours, hi]
  | some v =>
    rw [neighbours_of_some hi]
    by_cases hnull : v.IsNull
    · rw [if_pos hnull]
    · have hv : v ∈ c.store.vertices := mem_of_getElem? (c.store.getVertex_eq i ▸ hi)
      have hdirs := not_reaches_iff.mp h v.label (c.mem_labelsSet hv hnull)
      have hperm := expandView_perm (g := g) (p := p) v
      rw [hdirs] at hperm
      rw [if_neg hnull, ← hperm.nil_eq]

/-- Then the result without any row is right only for an empty column or without blank rows. -/
theorem nil_perm_expansion_iff (h : ¬ g.Reaches p c) :
    List.Perm [] (g.expansion p c) ↔ (p.isOptional = true → c.size = 0) := by
  unfold expansion
  simp only [neighbours_of_not_reaches h]
  cases p.isOptional with
  | false => simp [plain]
  | true =>
    rw [nil_perm, flatMap_eq_nil_iff]
    constructor
    · intro hnil _
      by_contra hsize
      have hzero := hnil 0 (mem_range.mpr (pos_of_ne_zero hsize))
      simp [padded] at hzero
    · intro hsize i hi
      rw [hsize rfl] at hi
      cases hi

theorem expandSL_perm (hs : c.store = .single label vids) (h : g.Reaches p c) :
    (g.expandSL p label vids).Perm (g.expansion p c) := by
  have hsize : c.size = vids.length := by
    rw [IVertexColumn.size, hs, VertexColumn.vertices, length_map]
  have hdirs : (g.getLabelDirs p label).isEmpty = false := by
    rw [Bool.eq_false_iff]
    intro hnil
    apply not_reaches_iff.mpr _ h
    simpa [InputColumn.labelsSet, hs] using hnil
  rw [expandSL, hdirs, ← hsize]
  apply collect_perm
  · rw [hsize]
    exact lt_of_mem_dirVisits
  · exact uniform_dirVisits
  · intro i hi
    have hget : c.store.getVertex i = some ⟨label, vids[i]⟩ := by
      rw [hs, VertexColumn.getVertex, getElem?_eq_getElem (hsize ▸ hi)]
      rfl
    rw [neighbours_of_some hget]
    exact found_dirVisits (getElem?_eq_getElem (hsize ▸ hi)) fun _ => rfl

theorem mem_segmentVisits {start : ℕ} :
    ∀ x ∈ g.segmentVisits p segments start, x.2 ≠ none ∧ start ≤ x.1 ∧
      x.1 < start + (VertexColumn.multiSegment segments).vertices.length := by
  induction segments generalizing start with
  | nil => simp [segmentVisits]
  | cons s rest ih =>
    obtain ⟨label, vids⟩ := s
    intro x hx
    rw [segmentVisits, mem_append] at hx
    have hlen : (VertexColumn.multiSegment ((label, vids) :: rest)).vertices.length =
        vids.length + (VertexColumn.multiSegment rest).vertices.length := by
      simp [VertexColumn.vertices]
    rcases hx with hx | hx
    · obtain ⟨d, -, hx⟩ := mem_flatMap.mp hx
      obtain ⟨y, hy, rfl⟩ := mem_map.mp hx
      have hlt := snd_lt_add_of_mem_zipIdx hy
      exact ⟨some_ne_none _, le_snd_of_mem_zipIdx hy, by simp only; omega⟩
    · obtain ⟨hsome, hle, hlt⟩ := ih x hx
      exact ⟨hsome, by omega, by omega⟩

theorem found_segmentVisits {start : ℕ} (hi : start ≤ i)
    (hv : (VertexColumn.multiSegment segments).vertices[i - start]? = some v) :
    (found (g.segmentVisits p segments start) i).Perm
      (if v.IsNull then [] else (g.matching p v).map Hop.vertex) := by
  induction segments generalizing start with
  | nil => simp [VertexColumn.vertices] at hv
  | cons s rest ih =>
    obtain ⟨label, vids⟩ := s
    have hfound := found_passes (g.getLabelDirs p label) (fun d x => some
      (if x = nullVid then [] else g.expandView p ⟨label, x⟩ d)) vids start i
    have hsplit : (VertexColumn.multiSegment ((label, vids) :: rest)).vertices =
      vids.map (VertexRecord.mk label) ++ (VertexColumn.multiSegment rest).vertices := rfl
    rw [segmentVisits, found_append, hfound, if_pos hi]
    by_cases hin : i - start < vids.length
    · -- the row lies in this segment
      have hrest : found (g.segmentVisits p rest (start + vids.length)) i = [] := by
        apply found_eq_nil
        intro x hx hxi
        have hle := (mem_segmentVisits x hx).2.1
        omega
      rw [hsplit, getElem?_append_left (by simpa using hin), getElem?_map,
        getElem?_eq_getElem hin] at hv
      cases hv
      rw [hrest, append_nil, getElem?_eq_getElem hin]
      by_cases hnull : vids[i - start] = nullVid
      · simp [hnull, VertexRecord.IsNull]
      · have hvertex : ¬ (VertexRecord.mk label vids[i - start]).IsNull := hnull
        simp only [bind_some, if_neg hnull, if_neg hvertex]
        exact expandView_perm _
    · have hhead : (g.getLabelDirs p label).flatMap (fun d => (vids[i - start]?.bind fun x => some
          (if x = nullVid then [] else g.expandView p ⟨label, x⟩ d)).getD []) = [] := by
        rw [getElem?_eq_none (by omega)]
        simp
      rw [hhead]
      apply ih (by omega)
      rw [hsplit, getElem?_append_right (by simpa using hin), length_map] at hv
      rwa [show i - (start + vids.length) = i - start - vids.length by omega]

theorem expandMS_perm (hs : c.store = .multiSegment segments) (h : g.Reaches p c) :
    (g.expandMS p segments).Perm (g.expansion p c) := by
  have hsize : c.size = (VertexColumn.multiSegment segments).vertices.length := by
    rw [IVertexColumn.size, hs]
  have hlabels : c.labelsSet = (segments.map Prod.fst).toFinset := by
    simp [InputColumn.labelsSet, hs]
  rw [Reaches, hlabels] at h
  rw [expandMS, if_neg h, ← hsize]
  apply collect_perm
  · intro x hx
    have hlt := (mem_segmentVisits x hx).2.2
    omega
  · intro x hx y hy hxy hnone
    exact absurd hnone (mem_segmentVisits x hx).1
  · intro i hi
    obtain ⟨v, -, hget⟩ := IVertexColumn.exists_vertex hi
    rw [neighbours_of_some hget]
    apply found_segmentVisits (Nat.zero_le i)
    rw [← hget, hs, VertexColumn.getVertex_eq, Nat.sub_zero]

def BlankRight (g : StoredGraph E) (p : ExpandParams E) (asksEmpty : Bool) (v : VertexRecord) :
    Prop :=
  asksEmpty = true → g.matching p v = [] →
    ∀ d ∈ g.getLabelDirs p v.label, g.viewEntries v.label d v.vid = 0

theorem nbrs_isEmpty_iff : (mlRow.nbrs g p v).isEmpty = true ↔ g.matching p v = [] := by
  have hperm := expandView_perm (g := g) (p := p) v
  rw [List.isEmpty_iff, mlRow.nbrs]
  constructor
  · intro hnil
    rw [hnil] at hperm
    exact map_eq_nil_iff.mp hperm.nil_eq.symm
  · intro hnil
    rw [hnil] at hperm
    exact hperm.eq_nil

theorem viewHops_of_entries {v : ℕ} (h : g.viewEntries label d v = 0) :
    g.viewHops label d v = [] := by
  unfold viewEntries at h
  unfold viewHops
  split_ifs at h ⊢ with hd
  · have hlen := g.outgoing_le ⟨label, d.nbrLabel, d.edgeLabel⟩ v
    rw [h] at hlen
    rw [length_eq_zero_iff.mp (Nat.le_zero.mp hlen), map_nil]
  · have hlen := g.incoming_le ⟨d.nbrLabel, label, d.edgeLabel⟩ v
    rw [h] at hlen
    rw [length_eq_zero_iff.mp (Nat.le_zero.mp hlen), map_nil]

theorem matching_of_entries
    (h : ∀ d ∈ g.getLabelDirs p v.label, g.viewEntries v.label d v.vid = 0) :
    g.matching p v = [] := by
  apply nbrs_isEmpty_iff.mp
  rw [List.isEmpty_iff, mlRow.nbrs, flatMap_eq_nil_iff]
  intro d hd
  simp [expandView, viewHops_of_entries (h d hd)]

theorem blank_iff {asksEmpty : Bool} (h : BlankRight g p asksEmpty v) :
    mlRow.blank g p asksEmpty v = true ↔ g.matching p v = [] := by
  unfold mlRow.blank
  cases asksEmpty with
  | false => exact nbrs_isEmpty_iff
  | true =>
    simp only [if_true, List.all_eq_true, decide_eq_true_eq]
    exact ⟨matching_of_entries, h rfl⟩

theorem mlRow_perm {asksEmpty : Bool}
    (hblank : p.isOptional = true → ¬ v.IsNull → BlankRight g p asksEmpty v)
    (hnull : p.isOptional = false → ¬ v.IsNull) : (g.mlRow p asksEmpty i v).Perm
      (if p.isOptional then
        padded i (if v.IsNull then [] else (g.matching p v).map Hop.vertex)
      else plain i (if v.IsNull then [] else (g.matching p v).map Hop.vertex)) := by
  have hperm := expandView_perm (g := g) (p := p) v
  unfold mlRow
  cases hopt : p.isOptional with
  | false => simpa [hnull hopt, plain, mlRow.nbrs] using hperm.map fun b => (i, some b)
  | true =>
    by_cases hv : v.IsNull
    · simp [hv, padded]
    · have hrow : plain i (mlRow.nbrs g p v) ++
          (if mlRow.blank g p asksEmpty v = true then [(i, none)] else []) =
            padded i (mlRow.nbrs g p v) := by
        have hiff := (blank_iff (hblank hopt hv)).trans nbrs_isEmpty_iff.symm
        unfold padded
        by_cases hempty : (mlRow.nbrs g p v).isEmpty = true
        · rw [if_pos (hiff.mpr hempty), isEmpty_iff.mp hempty]
          rfl
        · rw [if_neg (mt hiff.mp hempty), if_neg hempty, append_nil]
          rfl
      simp only [hv, true_and, hrow]
      exact padded_perm hperm

theorem mem_mlRow_none {asksEmpty : Bool} {j : ℕ} (h : (i, none) ∈ g.mlRow p asksEmpty j v) :
    i = j ∧ (v.IsNull ∨ mlRow.blank g p asksEmpty v = true) := by
  unfold mlRow at h
  split_ifs at h with hnull hblank
  · exact ⟨congrArg Prod.fst (mem_singleton.mp h), .inl hnull.2⟩
  · rcases mem_append.mp h with h | h
    · simp [plain] at h
    · exact ⟨congrArg Prod.fst (mem_singleton.mp h), .inr hblank.2⟩
  · simp [plain] at h

/-- The rows of the vertices one by one are those of the expansion exactly if every blank row is
right. -/
theorem mlRows_perm_iff (asksEmpty : Bool)
    (hs : c.store = .multiple vs) (hnull : p.isOptional = false → ∀ v ∈ vs, ¬ v.IsNull) :
    (g.mlRows p asksEmpty vs).Perm (g.expansion p c) ↔
      (p.isOptional = true → ∀ v ∈ vs, ¬ v.IsNull → BlankRight g p asksEmpty v) := by
  have hsize : c.size = vs.length := by rw [IVertexColumn.size, hs, VertexColumn.vertices]
  have hget : ∀ i, c.store.getVertex i = vs[i]? := fun i => by rw [hs, VertexColumn.getVertex]
  constructor
  · intro hperm hopt v hv hvnull hasks hnone
    obtain ⟨i, hi, rfl⟩ := mem_iff_getElem.mp hv
    -- the blank row of the expansion is a row of the vertex
    have hspec : (i, none) ∈ g.expansion p c := by
      refine mem_flatMap.mpr ⟨i, mem_range.mpr (hsize ▸ hi), ?_⟩
      rw [neighbours_of_some ((hget i).trans (getElem?_eq_getElem hi)), hnone]
      simp [hopt, padded]
    obtain ⟨⟨w, j⟩, hw, hrow⟩ := mem_flatMap.mp (hperm.mem_iff.mpr hspec)
    obtain ⟨rfl, hblank⟩ := mem_mlRow_none hrow
    have hsame : w = vs[i] := by
      have hw := mem_zipIdx_iff_getElem?.mp hw
      exact some.inj (hw.symm.trans (getElem?_eq_getElem hi))
    rw [hsame] at hblank
    have hzero := hblank.resolve_left hvnull
    rw [mlRow.blank, hasks] at hzero
    simpa using hzero
  · intro hblank
    rw [mlRows, zipIdx_flatMap, expansion, hsize]
    apply List.Perm.flatMap_left
    intro i hi
    have hlt := mem_range.mp hi
    have hv : vs[i] ∈ vs := getElem_mem hlt
    rw [neighbours_of_some ((hget i).trans (getElem?_eq_getElem hlt)), getElem?_eq_getElem hlt]
    exact mlRow_perm (fun hopt => hblank hopt _ hv) fun hopt => hnull hopt _ hv

theorem expandML_single_perm (hs : c.store = .multiple vs) (hlabels : c.mlLabels = {label}) :
    (collect p (g.dirVisits p label (vs.map (·.vid))) vs.length).Perm (g.expansion p c) := by
  have hsize : c.size = vs.length := by rw [IVertexColumn.size, hs, VertexColumn.vertices]
  rw [← hsize]
  apply collect_perm
  · intro x hx
    simpa [hsize] using lt_of_mem_dirVisits x hx
  · exact uniform_dirVisits
  · intro i hi
    rw [hsize] at hi
    have hget : c.store.getVertex i = some vs[i] := by
      rw [hs, VertexColumn.getVertex, getElem?_eq_getElem hi]
    rw [neighbours_of_some hget]
    apply found_dirVisits
    · rw [getElem?_map, getElem?_eq_getElem hi]
      rfl
    · intro hnull
      have hmem := c.covers vs hs _ (getElem_mem hi) hnull
      rwa [hlabels, Finset.mem_singleton] at hmem

theorem all_label_lt_iff (hs : c.store = .multiple vs) :
    (vs.all fun v => v.label < g.labelNum) = true ↔ ∀ v ∈ vs, ¬ v.IsNull := by
  have hvs : c.store.vertices = vs := by rw [hs, VertexColumn.vertices]
  rw [List.all_eq_true]
  constructor
  · intro h v hv hnull
    have hlt : v.label < g.labelNum := by simpa using h v hv
    have hlabel := c.nullRecord (by rw [hs]; rfl) v (hvs ▸ hv) hnull
    have hle := g.labelNum_le
    omega
  · intro h v hv
    simpa using c.labels_lt v (hvs ▸ hv) (h v hv)

/-- Where the code asks `es.empty()` instead of what it has pushed. -/
def asksEmpty (g : StoredGraph E) (p : ExpandParams E) (labels : Finset ℕ) : Bool :=
  p.pred.isNone &&
    (if g.singleViewPerLabel p labels then (g.nbrLabels p labels).card ≠ 1
      else (g.nbrLabels p labels).card = 1 : Bool)

/-- In optional mode some view exists, and in the branches of a multi-label column with several
labels the null rows and the blank rows are right. -/
def VertexFits (g : StoredGraph E) (p : ExpandParams E) (c : InputColumn g) : Prop :=
  p.isOptional = true → (c.size = 0 ∨ g.Reaches p c) ∧
    ∀ vs, c.store = .multiple vs → c.mlLabels.card ≠ 1 →
      (g.singleViewPerLabel p c.mlLabels = true → ∀ v ∈ vs, ¬ v.IsNull) ∧
      ∀ v ∈ vs, ¬ v.IsNull → BlankRight g p (g.asksEmpty p c.mlLabels) v

def IsExpansion (g : StoredGraph E) (p : ExpandParams E) (c : InputColumn g) : Prop :=
  ∃ rows, g.expandVertexImpl p c = some rows ∧ rows.Perm (g.expansion p c)

theorem expandVertexImpl_of_not_reaches (h : ¬ g.Reaches p c) :
    g.expandVertexImpl p c = some [] := by
  have hdirs := not_reaches_iff.mp h
  have hnbr : g.nbrLabels p c.labelsSet = ∅ := nbrLabels_eq_empty.mpr hdirs
  unfold expandVertexImpl
  cases hs : c.store with
  | single label vids =>
    have hnil : g.getLabelDirs p label = [] := hdirs label (by simp [InputColumn.labelsSet, hs])
    simp [expandSL, hnil]
  | multiSegment segments =>
    simp only [InputColumn.labelsSet, hs] at hnbr
    simp [expandMS, hnbr]
  | multiple vs =>
    simp only [InputColumn.labelsSet, hs] at hnbr
    simp [expandML, hnbr]

theorem vertexFits_of_not_reaches (h : ¬ g.Reaches p c) :
    g.VertexFits p c ↔ (p.isOptional = true → c.size = 0) := by
  apply forall_congr'
  intro _
  constructor
  · exact fun hfits => hfits.1.resolve_right h
  · intro hsize
    refine ⟨.inl hsize, fun vs hs _ => ?_⟩
    have hnil : vs = [] := by
      rw [IVertexColumn.size, hs] at hsize
      exact length_eq_zero_iff.mp hsize
    simp [hnil]

theorem isExpansion_multiple_iff
    (hs : c.store = .multiple vs) (h : g.Reaches p c) (hcard : c.mlLabels.card ≠ 1)
    (hnull : p.isOptional = false → ∀ v ∈ vs, ¬ v.IsNull) :
    g.IsExpansion p c ↔ (p.isOptional = true →
      (g.singleViewPerLabel p c.mlLabels = true → ∀ v ∈ vs, ¬ v.IsNull) ∧
      ∀ v ∈ vs, ¬ v.IsNull → BlankRight g p (g.asksEmpty p c.mlLabels) v) := by
  have hlabels : c.labelsSet = c.mlLabels := by simp [InputColumn.labelsSet, hs]
  rw [Reaches, hlabels] at h
  have hrun : g.expandVertexImpl p c = if g.singleViewPerLabel p c.mlLabels = true ∧
      ¬ ∀ v ∈ vs, ¬ v.IsNull then none else some (g.mlRows p (g.asksEmpty p c.mlLabels) vs) := by
    have hall := all_label_lt_iff hs
    simp only [expandVertexImpl, hs, expandML, if_neg h, dif_neg hcard, asksEmpty]
    cases hone : g.singleViewPerLabel p c.mlLabels with
    | false => simp
    | true =>
      simp only [if_true, true_and]
      by_cases hno : ∀ v ∈ vs, ¬ v.IsNull
      · rw [if_pos (hall.mpr hno), if_neg fun hbad => hbad hno]
      · rw [if_neg (mt hall.mp hno), if_pos hno]
  have hrows := mlRows_perm_iff (g.asksEmpty p c.mlLabels) hs hnull
  unfold IsExpansion
  rw [hrun]
  by_cases hbad : g.singleViewPerLabel p c.mlLabels = true ∧ ¬ ∀ v ∈ vs, ¬ v.IsNull
  · simp only [if_pos hbad, reduceCtorEq, false_and, exists_const, false_iff]
    intro hfits
    cases hopt : p.isOptional with
    | false => exact hbad.2 (hnull hopt)
    | true => exact hbad.2 ((hfits hopt).1 hbad.1)
  · simp only [if_neg hbad, some.injEq, exists_eq_left', hrows]
    apply forall_congr'
    intro _
    constructor
    · exact fun hblank => ⟨fun hsingle => not_not.mp fun hno => hbad ⟨hsingle, hno⟩, hblank⟩
    · exact fun hfits => hfits.2

end StoredGraph

/-- A column that is expanded: `expand_vertex` removes the null rows first, unless in optional
mode. -/
structure ExpandInput (g : StoredGraph E) (p : ExpandParams E) extends InputColumn g where
  noNullRows : p.isOptional = false → ∀ v ∈ store.vertices, ¬ v.IsNull

namespace StoredGraph

theorem isExpansion_iff (c : ExpandInput g p) :
    g.IsExpansion p c.toInputColumn ↔ g.VertexFits p c.toInputColumn := by
  by_cases h : g.Reaches p c.toInputColumn
  · cases hs : c.store with
    | single label vids =>
      have hfits : g.VertexFits p c.toInputColumn := by
        intro _
        exact ⟨.inr h, fun vs hvs => by rw [hs] at hvs; cases hvs⟩
      refine iff_of_true ⟨g.expandSL p label vids, ?_, expandSL_perm hs h⟩ hfits
      simp [expandVertexImpl, hs]
    | multiSegment segments =>
      have hfits : g.VertexFits p c.toInputColumn := by
        intro _
        exact ⟨.inr h, fun vs hvs => by rw [hs] at hvs; cases hvs⟩
      refine iff_of_true ⟨g.expandMS p segments, ?_, expandMS_perm hs h⟩ hfits
      simp [expandVertexImpl, hs]
    | multiple vs =>
      have hnull : p.isOptional = false → ∀ v ∈ vs, ¬ v.IsNull := by
        intro hopt v hv
        exact c.noNullRows hopt v (by rw [hs]; exact hv)
      by_cases hcard : c.mlLabels.card = 1
      · obtain ⟨label, hlabel⟩ := Finset.card_eq_one.mp hcard
        have hfits : g.VertexFits p c.toInputColumn :=
          fun _ => ⟨.inr h, fun _ _ hne => absurd hcard hne⟩
        refine iff_of_true ⟨_, ?_, expandML_single_perm hs hlabel⟩ hfits
        have hnbr : g.nbrLabels p c.mlLabels ≠ ∅ := by
          simpa only [Reaches, InputColumn.labelsSet, hs] using h
        simp only [expandVertexImpl, hs, expandML, if_neg hnbr]
        simp [hlabel]
      · rw [isExpansion_multiple_iff hs h hcard hnull]
        apply forall_congr'
        intro _
        constructor
        · intro hfits
          refine ⟨.inr h, fun vs' hvs' _ => ?_⟩
          obtain rfl : vs = vs' := VertexColumn.multiple.inj (hs.symm.trans hvs')
          exact hfits
        · exact fun hfits => hfits.2 vs hs hcard
  · rw [vertexFits_of_not_reaches h, ← nil_perm_expansion_iff h, IsExpansion,
      expandVertexImpl_of_not_reaches h]
    simp

end StoredGraph

end Neug.Execution
