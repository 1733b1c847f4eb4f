import Neug.Execution.EdgeExpand

/-! `Intersect`: the common neighbours of two or more bound vertices. A hash map from vertices to
counts is a multiset of vertices. -/
namespace Neug.Execution

open List

variable {E : Type}

/-- `EdgeAndNbrPredicate`: a test of the edge and of the vertex that it leads to. -/
abbrev EdgeAndNbrPredicate (E : Type) := VertexRecord → Hop E → Bool

/-- One branch: the members of `EdgeExpandParams` that the intersection reads, with `get_vertex` of
the column at `v_tag`. The binder lists edge tables of the schema, each once. -/
structure Branch (g : StoredGraph E) where
  labels : List LabelTriplet
  dir : Direction
  vertex : ℕ → VertexRecord
  nodup : labels.Nodup
  exist : ∀ τ ∈ labels, g.exist τ = true

namespace Branch

variable {g : StoredGraph E}

def hops (b : Branch g) (pred : EdgeAndNbrPredicate E) (i : ℕ) : List (Hop E) :=
  (g.hopsFrom b.labels b.dir (b.vertex i)).filter (pred (b.vertex i))

def params (b : Branch g) (pred : EdgeAndNbrPredicate E) : ExpandParams E :=
  ⟨b.labels, b.dir, false, some pred⟩

theorem matching_params (b : Branch g) (pred : EdgeAndNbrPredicate E) (i : ℕ) :
    g.matching (b.params pred) (b.vertex i) = b.hops pred i := by
  have htables : g.tables (b.params pred) = b.labels := by
    unfold StoredGraph.tables params
    rw [filter_eq_self.mpr b.exist, b.nodup.dedup]
  unfold StoredGraph.matching
  rw [htables]
  rfl

end Branch

namespace StoredGraph

variable (g : StoredGraph E)

def slLabel (dir : Direction) (τ : LabelTriplet) : ℕ :=
  if dir = .out then τ.dstLabel else τ.srcLabel

def slViews (dir : Direction) (τ : LabelTriplet) : List LabelDir :=
  (if dir ≠ .inn then [⟨τ.dstLabel, τ.edgeLabel, .out⟩] else []) ++
    if dir ≠ .out then [⟨τ.srcLabel, τ.edgeLabel, .inn⟩] else []

/-- The views are taken with the label of the vertex. Without such an edge table this throws. -/
def slExist (dir : Direction) (τ : LabelTriplet) (v : VertexRecord) : Bool :=
  (slViews dir τ).all fun d => g.exist (viewTriplet (v.label, d))

/-- The edges of these views. Whatever their direction, the neighbour is given the label `label`. -/
def slHops (label : ℕ) (dir : Direction) (τ : LabelTriplet) (v : VertexRecord) : List (Hop E) :=
  (slViews dir τ).flatMap fun d => (g.viewHops v.label d v.vid).map fun h =>
    { h with vertex := ⟨label, h.vertex.vid⟩ }

/-- `Binary_Intersect_SL_Impl` in one row. The neighbours of the left branch are kept as a set of
numbers. -/
def binaryIntersectSL (b₀ b₁ : Branch g) (τ₀ τ₁ : LabelTriplet)
    (left right : EdgeAndNbrPredicate E) (i : ℕ) : Option (Multiset VertexRecord) :=
  if g.slExist b₀.dir τ₀ (b₀.vertex i) && g.slExist b₁.dir τ₁ (b₁.vertex i) then
    some ((rightHops.filter fun h => h.vertex.vid ∈ vertexSet).map Hop.vertex)
  else none
where
  leftHops : List (Hop E) :=
    (g.slHops (slLabel b₀.dir τ₀) b₀.dir τ₀ (b₀.vertex i)).filter (left (b₀.vertex i))
  rightHops : List (Hop E) :=
    (g.slHops (slLabel b₀.dir τ₀) b₁.dir τ₁ (b₁.vertex i)).filter (right (b₁.vertex i))
  vertexSet : Finset ℕ := (leftHops.map fun h => h.vertex.vid).toFinset

def tally (hops : List (Hop E)) : Multiset VertexRecord :=
  hops.foldl (fun counts h => h.vertex ::ₘ counts) 0

/-- `Binary_Intersect_ML_Impl` in one row. -/
def binaryIntersectML (left right : List (Hop E)) : Multiset VertexRecord :=
  (right.flatMap fun h => List.replicate ((tally left).count h.vertex) h.vertex : List VertexRecord)

def binaryIntersect (b₀ b₁ : Branch g) (left right : EdgeAndNbrPredicate E) (i : ℕ) :
    Option (Multiset VertexRecord) :=
  match b₀.labels, b₁.labels with
  | [τ₀], [τ₁] => g.binaryIntersectSL b₀ b₁ τ₀ τ₁ left right i
  | _, _ => some (binaryIntersectML (b₀.hops left i) (b₁.hops right i))

/-- `tmp_set` after a branch. -/
def meet (counts : Multiset VertexRecord) (hops : List (Hop E)) : Multiset VertexRecord :=
  hops.foldl (fun tmp h =>
    if h.vertex ∈ counts then tmp + .replicate (counts.count h.vertex) h.vertex else tmp) 0

def meetAll (counts : Multiset VertexRecord) : List (List (Hop E)) → Multiset VertexRecord
  | [] => counts
  | hops :: rest => if meet counts hops = 0 then 0 else meetAll (meet counts hops) rest

def multipleIntersect : List (List (Hop E)) → Multiset VertexRecord
  | [] => 0
  | hops :: rest => meetAll (tally hops) rest

def branchHops (bs : List (Branch g)) (preds : ℕ → EdgeAndNbrPredicate E) (i : ℕ) :
    List (List (Hop E)) :=
  bs.zipIdx.map fun x => x.1.hops (preds x.2) i

def intersectRow (bs : List (Branch g)) (preds : ℕ → EdgeAndNbrPredicate E) (i : ℕ) :
    Option (Multiset VertexRecord) :=
  match bs with
  | [b₀, b₁] => g.binaryIntersect b₀ b₁ (preds 0) (preds 1) i
  | bs => some (multipleIntersect (g.branchHops bs preds i))

/-- `IntersectOprMultip`: the new vertices of every row. -/
def intersect (bs : List (Branch g)) (preds : ℕ → EdgeAndNbrPredicate E) (rowNum : ℕ) :
    Option (List (Multiset VertexRecord)) :=
  (List.range rowNum).mapM (g.intersectRow bs preds)

/-- A row of `Binary_Intersect_With_Edge`: the vertex, and the edges whose alias is kept. -/
structure EdgeRow (E : Type) where
  vertex : VertexRecord
  leftEdge : Option (Hop E)
  rightEdge : Option (Hop E)

def EdgeRow.of (keepLeft keepRight : Bool) (h k : Hop E) : EdgeRow E :=
  ⟨k.vertex, if keepLeft then some h else none, if keepRight then some k else none⟩

/-- `vertex_set[rcd]`: the positions in `aux_values` of the edges to a vertex. -/
def positions (auxValues : List (Hop E)) (rcd : VertexRecord) : List ℕ :=
  (List.range auxValues.length).filter fun idx => auxValues[idx]?.map Hop.vertex = some rcd

/-- `Binary_Intersect_With_Edge` in one row. -/
def binaryIntersectWithEdge (keepLeft keepRight : Bool) (left right : List (Hop E)) :
    List (EdgeRow E) :=
  right.flatMap fun k => (positions left k.vertex).filterMap fun idx =>
    left[idx]?.map fun h => .of keepLeft keepRight h k

theorem tally_eq (hops : List (Hop E)) :
    tally hops = (hops.map Hop.vertex : List VertexRecord) := by
  have hgen : ∀ (hops : List (Hop E)) counts,
      hops.foldl (fun counts h => h.vertex ::ₘ counts) counts =
        (hops.map Hop.vertex) + counts := by
    intro hops
    induction hops with
    | nil => simp
    | cons h hops ih =>
      intro counts
      rw [foldl_cons, ih, map_cons, ← Multiset.cons_coe, Multiset.add_cons,
        Multiset.cons_add]
  simpa [tally] using hgen hops 0

theorem count_meet (counts : Multiset VertexRecord) (hops : List (Hop E)) (v : VertexRecord) :
    (meet counts hops).count v = counts.count v * (hops.map Hop.vertex).count v := by
  have hgen : ∀ (hops : List (Hop E)) (tmp : Multiset VertexRecord),
      (hops.foldl (fun tmp h => if h.vertex ∈ counts then
          tmp + .replicate (counts.count h.vertex) h.vertex else tmp) tmp).count v =
        tmp.count v + counts.count v * (hops.map Hop.vertex).count v := by
    intro hops
    induction hops with
    | nil => simp
    | cons h hops ih =>
      intro tmp
      rw [foldl_cons, ih]
      by_cases hv : h.vertex = v
      · by_cases hm : v ∈ counts
        · simp [hv, hm]
          ring
        · simp [hv, hm]
      · have hv' : v ≠ h.vertex := Ne.symm hv
        split_ifs <;> simp_all [Multiset.count_replicate]
  simpa [meet] using hgen hops 0

theorem count_meetAll (v : VertexRecord) : ∀ (hopss : List (List (Hop E)))
    (counts : Multiset VertexRecord), (meetAll counts hopss).count v =
      counts.count v * (hopss.map fun hops => (hops.map Hop.vertex).count v).prod
  | [], counts => by simp [meetAll]
  | hops :: rest, counts => by
    have hmeet := count_meet counts hops v
    unfold meetAll
    split_ifs with hzero
    · rw [hzero] at hmeet
      rw [map_cons, prod_cons, ← mul_assoc, ← hmeet]
      simp
    · rw [count_meetAll v rest, hmeet, map_cons, prod_cons, mul_assoc]

def IsProduct (hopss : List (List (Hop E))) (vertices : Multiset VertexRecord) : Prop :=
  ∀ v, vertices.count v = (hopss.map fun hops => (hops.map Hop.vertex).count v).prod

theorem isProduct_multipleIntersect {hopss : List (List (Hop E))} (hne : hopss ≠ []) :
    IsProduct hopss (multipleIntersect hopss) := by
  intro v
  cases hopss with
  | nil => exact absurd rfl hne
  | cons hops rest =>
    unfold multipleIntersect
    rw [count_meetAll, tally_eq, Multiset.coe_count, map_cons, prod_cons]

theorem isProduct_binaryIntersectML (left right : List (Hop E)) :
    IsProduct [left, right] (binaryIntersectML left right) := by
  intro v
  unfold binaryIntersectML
  rw [tally_eq]
  simp only [Multiset.coe_count]
  induction right with
  | nil => simp
  | cons k right ih =>
    rw [flatMap_cons, count_append, ih,
      count_replicate]
    by_cases hv : k.vertex = v
    · simp [hv]
      ring
    · simp [hv]

def combinations (keepLeft keepRight : Bool) (left right : List (Hop E)) : Multiset (EdgeRow E) :=
  (((left : Multiset (Hop E)) ×ˢ (right : Multiset (Hop E))).filter
    fun x => x.1.vertex = x.2.vertex).map fun x => .of keepLeft keepRight x.1 x.2

theorem filterMap_positions {α : Type} (f : Hop E → α) (left : List (Hop E)) (rcd : VertexRecord) :
    ((positions left rcd).filterMap fun idx => left[idx]?.map f) =
      (left.filter fun h => h.vertex = rcd).map f := by
  unfold positions
  induction left with
  | nil => rfl
  | cons h left ih =>
    rw [length_cons, range_succ_eq_map, filter_cons,
      filter_map]
    by_cases hv : h.vertex = rcd
    · simpa [hv, Function.comp_def] using ih
    · simpa [hv, Function.comp_def] using ih

theorem binaryIntersectWithEdge_eq (keepLeft keepRight : Bool) (left right : List (Hop E)) :
    (binaryIntersectWithEdge keepLeft keepRight left right : Multiset (EdgeRow E)) =
      combinations keepLeft keepRight left right := by
  unfold binaryIntersectWithEdge combinations
  induction right with
  | nil => simp
  | cons k right ih =>
    rw [flatMap_cons, ← Multiset.coe_add, ih, filterMap_positions, ← Multiset.cons_coe,
      Multiset.product_cons, Multiset.filter_add, Multiset.map_add, Multiset.filter_map,
      Multiset.map_map]
    rfl

variable {h : Hop E} {τ : LabelTriplet} {v : VertexRecord} {dir : Direction}

theorem mem_slHops {label : ℕ} :
    h ∈ g.slHops label dir τ v ↔ h.vertex.label = label ∧ h.edgeLabel = τ.edgeLabel ∧
      (h.dir = .out ∧ dir ≠ .inn ∧ h.payload ∈ g.edges ⟨v.label, τ.dstLabel, τ.edgeLabel⟩ ∧
          g.src h.payload = v.vid ∧ g.dst h.payload = h.vertex.vid ∨
        h.dir = .inn ∧ dir ≠ .out ∧ h.payload ∈ g.edges ⟨τ.srcLabel, v.label, τ.edgeLabel⟩ ∧
          g.dst h.payload = v.vid ∧ g.src h.payload = h.vertex.vid) := by
  obtain ⟨edgeLabel, d, ⟨l, x⟩, e⟩ := h
  cases dir <;> simp [slHops, slViews, viewHops, ReadGraph.mem_outgoing, ReadGraph.mem_incoming] <;>
    grind

theorem nodup_slHops (label : ℕ) (dir : Direction) (τ : LabelTriplet) (v : VertexRecord) :
    (g.slHops label dir τ v).Nodup := by
  have hout : ((g.outgoing ⟨v.label, τ.dstLabel, τ.edgeLabel⟩ v.vid).map fun e =>
      (⟨τ.edgeLabel, .out, ⟨label, g.dst e⟩, e⟩ : Hop E)).Nodup :=
    (g.nodup_outgoing _ _).map fun _ _ heq => (Hop.mk.inj heq).2.2.2
  have hin : ((g.incoming ⟨τ.srcLabel, v.label, τ.edgeLabel⟩ v.vid).map fun e =>
      (⟨τ.edgeLabel, .inn, ⟨label, g.src e⟩, e⟩ : Hop E)).Nodup :=
    (g.nodup_incoming _ _).map fun _ _ heq => (Hop.mk.inj heq).2.2.2
  cases dir with
  | out => simpa [slHops, slViews, viewHops, Function.comp_def] using hout
  | inn => simpa [slHops, slViews, viewHops, Function.comp_def] using hin
  | both =>
    have hdisj := hout.append hin fun h ho hi => by
      obtain ⟨e, -, rfl⟩ := mem_map.mp ho
      obtain ⟨e', -, heq⟩ := mem_map.mp hi
      cases (Hop.mk.inj heq).2.1
    simpa [slHops, slViews, viewHops, Function.comp_def] using hdisj

theorem relabel_mem_slHops (label : ℕ) (hh : h ∈ g.hopsFrom [τ] dir v) :
    { h with vertex := ⟨label, h.vertex.vid⟩ } ∈ g.slHops label dir τ v := by
  apply g.mem_slHops.mpr
  rcases g.mem_hopsFrom.mp hh with ⟨hd, hdir, hτ, he, hs, ht⟩ | ⟨hd, hdir, hτ, he, hs, ht⟩
  · obtain rfl := mem_singleton.mp hτ
    exact ⟨rfl, rfl, .inl ⟨hd, hdir, he, hs, ht⟩⟩
  · obtain rfl := mem_singleton.mp hτ
    exact ⟨rfl, rfl, .inr ⟨hd, hdir, he, hs, ht⟩⟩

theorem eq_relabel {label : ℕ} (hh : h ∈ g.hopsFrom [τ] dir v)
    (hr : { h with vertex := ⟨label, h.vertex.vid⟩ } ∈ g.hopsFrom [τ] dir v) :
    { h with vertex := ⟨label, h.vertex.vid⟩ } = h := by
  obtain ⟨edgeLabel, d, ⟨l, x⟩, e⟩ := h
  have hh' := g.mem_hopsFrom.mp hh
  have hr' := g.mem_hopsFrom.mp hr
  simp only [ReadGraph.IsHop] at hh' hr'
  have hlabel : label = l := by grind
  rw [hlabel]

/-- Where edges that the two branches run over lead to the same number, both are edges of the
branches, with that end, and the left branch runs over no other edge to it. -/
def SlFits (b₀ b₁ : Branch g) (τ₀ τ₁ : LabelTriplet) (i : ℕ) : Prop :=
  ∀ h ∈ g.slHops (slLabel b₀.dir τ₀) b₀.dir τ₀ (b₀.vertex i),
    ∀ k ∈ g.slHops (slLabel b₀.dir τ₀) b₁.dir τ₁ (b₁.vertex i), h.vertex = k.vertex →
      h ∈ g.hopsFrom [τ₀] b₀.dir (b₀.vertex i) ∧ k ∈ g.hopsFrom [τ₁] b₁.dir (b₁.vertex i) ∧
      ∀ h' ∈ g.slHops (slLabel b₀.dir τ₀) b₀.dir τ₀ (b₀.vertex i), h'.vertex = h.vertex → h' = h

section

variable {α β : Type} [DecidableEq β] (f : α → β) {L R A B : List α}

theorem count_map_filter (p : α → Bool) (l : List α) (v : β) :
    ((l.filter p).map f).count v = ((l.filter fun x => f x = v).filter p).length := by
  induction l with
  | nil => rfl
  | cons x l ih => by_cases hp : p x <;> by_cases hv : f x = v <;> simp_all

/-- Counting against the set of the left keys gives the product of the counts if matching elements
of `L` and `R` are those of `A` and `B` and no two elements of `L` match one of `R`. -/
theorem count_semijoin (hR : R.Nodup) (hA : A.Nodup) (hB : B.Nodup)
    (hfits : ∀ h ∈ L, ∀ k ∈ R, f h = f k → h ∈ A ∧ k ∈ B ∧ ∀ h' ∈ L, f h' = f h → h' = h)
    (hcovers : ∀ h ∈ A, ∀ k ∈ B, f h = f k → h ∈ L ∧ k ∈ R) (p q : α → Bool) (v : β) :
    (((R.filter q).filter fun k => f k ∈ (L.filter p).map f).map f).count v =
      ((A.filter p).map f).count v * ((B.filter q).map f).count v := by
  by_cases hmeet : ∃ h ∈ L, ∃ k ∈ R, f h = v ∧ f k = v
  · obtain ⟨h, hh, k, hk, hhv, hkv⟩ := hmeet
    obtain ⟨hhA, hkB, huniq⟩ := hfits h hh k hk (hhv.trans hkv.symm)
    have hleft : (A.filter fun x => f x = v).Perm [h] := by
      apply (perm_ext_iff_of_nodup (hA.filter _) (nodup_singleton h)).mpr
      intro a
      simp only [mem_filter, decide_eq_true_eq, mem_singleton]
      constructor
      · intro ha
        exact huniq a (hcovers a ha.1 k hkB (ha.2.trans hkv.symm)).1 (ha.2.trans hhv.symm)
      · rintro rfl
        exact ⟨hhA, hhv⟩
    have hright : (B.filter fun x => f x = v).Perm (R.filter fun x => f x = v) := by
      apply (perm_ext_iff_of_nodup (hB.filter _) (hR.filter _)).mpr
      intro a
      simp only [mem_filter, decide_eq_true_eq]
      constructor
      · intro ha
        exact ⟨(hcovers h hhA a ha.1 (hhv.trans ha.2.symm)).2, ha.2⟩
      · intro ha
        exact ⟨(hfits h hh a ha.1 (hhv.trans ha.2.symm)).2.1, ha.2⟩
    have hmem : v ∈ (L.filter p).map f ↔ p h = true := by
      constructor
      · intro hv
        obtain ⟨a, ha, hav⟩ := mem_map.mp hv
        obtain ⟨ha, hp⟩ := mem_filter.mp ha
        rwa [← huniq a ha (hav.trans hhv.symm)]
      · intro hp
        exact mem_map.mpr ⟨h, mem_filter.mpr ⟨hh, hp⟩, hhv⟩
    have hdec : decide (v ∈ (L.filter p).map f) = p h := by
      rw [Bool.eq_iff_iff, decide_eq_true_eq, hmem]
    have hset : (R.filter fun x => f x = v).filter
        (fun k => decide (f k ∈ (L.filter p).map f) && q k) =
        (R.filter fun x => f x = v).filter fun k => p h && q k := by
      apply filter_congr
      intro a ha
      have hav : f a = v := by simpa using (mem_filter.mp ha).2
      rw [hav, hdec]
    rw [filter_filter, count_map_filter, count_map_filter, count_map_filter, hset,
      (hleft.filter p).length_eq, (hright.filter q).length_eq]
    cases hp : p h <;> simp [hp]
  · have hzero : ((A.filter p).map f).count v * ((B.filter q).map f).count v = 0 := by
      by_contra hne
      obtain ⟨ha, hb⟩ := mul_ne_zero_iff.mp hne
      obtain ⟨a, ha, hav⟩ := mem_map.mp (count_pos_iff.mp (pos_of_ne_zero ha))
      obtain ⟨b, hb, hbv⟩ := mem_map.mp (count_pos_iff.mp (pos_of_ne_zero hb))
      obtain ⟨haL, hbR⟩ := hcovers a (mem_filter.mp ha).1 b (mem_filter.mp hb).1
        (hav.trans hbv.symm)
      exact hmeet ⟨a, haL, b, hbR, hav, hbv⟩
    rw [hzero]
    apply count_eq_zero_of_not_mem
    intro hv
    obtain ⟨k, hk, hkv⟩ := mem_map.mp hv
    obtain ⟨hk, hin⟩ := mem_filter.mp hk
    obtain ⟨h, hh, hhk⟩ := mem_map.mp (of_decide_eq_true hin)
    exact hmeet ⟨h, (mem_filter.mp hh).1, k, (mem_filter.mp hk).1, hhk.trans hkv, hkv⟩

end

variable {g}

/-- All vertices in play have the same label, so that their numbers can be compared in place of
them. -/
theorem binaryIntersectSL_eq (b₀ b₁ : Branch g) (τ₀ τ₁ : LabelTriplet)
    (left right : EdgeAndNbrPredicate E) (i : ℕ) : g.binaryIntersectSL b₀ b₁ τ₀ τ₁ left right i =
      if g.slExist b₀.dir τ₀ (b₀.vertex i) && g.slExist b₁.dir τ₁ (b₁.vertex i) then
        some (((((g.slHops (slLabel b₀.dir τ₀) b₁.dir τ₁ (b₁.vertex i)).filter
          (right (b₁.vertex i))).filter fun k => k.vertex ∈
            ((g.slHops (slLabel b₀.dir τ₀) b₀.dir τ₀ (b₀.vertex i)).filter
              (left (b₀.vertex i))).map Hop.vertex).map Hop.vertex : List VertexRecord) :
          Multiset VertexRecord)
      else none := by
  have hset : (binaryIntersectSL.rightHops g b₀ b₁ τ₀ τ₁ right i).filter
      (fun h => decide (h.vertex.vid ∈ binaryIntersectSL.vertexSet g b₀ τ₀ left i)) =
      (binaryIntersectSL.rightHops g b₀ b₁ τ₀ τ₁ right i).filter fun k => k.vertex ∈
        (binaryIntersectSL.leftHops g b₀ τ₀ left i).map Hop.vertex := by
    apply filter_congr
    intro k hk
    have hkl : k.vertex.label = slLabel b₀.dir τ₀ := (g.mem_slHops.mp (mem_filter.mp hk).1).1
    simp only [binaryIntersectSL.vertexSet, mem_toFinset, mem_map, decide_eq_decide]
    constructor
    · rintro ⟨h, hh, hv⟩
      have hhl : h.vertex.label = slLabel b₀.dir τ₀ := (g.mem_slHops.mp (mem_filter.mp hh).1).1
      refine ⟨h, hh, ?_⟩
      cases hx : h.vertex
      cases hy : k.vertex
      simp_all
    · rintro ⟨h, hh, hv⟩
      exact ⟨h, hh, by rw [hv]⟩
  unfold binaryIntersectSL
  rw [hset]
  rfl

/-- The edges of the branches that lead to one vertex are among those that the code runs over. -/
theorem SlFits.covers {b₀ b₁ : Branch g} {τ₀ τ₁ : LabelTriplet} {i : ℕ}
    (hfits : g.SlFits b₀ b₁ τ₀ τ₁ i) {k : Hop E}
    (hh : h ∈ g.hopsFrom [τ₀] b₀.dir (b₀.vertex i)) (hk : k ∈ g.hopsFrom [τ₁] b₁.dir (b₁.vertex i))
    (hhk : h.vertex = k.vertex) : h ∈ g.slHops (slLabel b₀.dir τ₀) b₀.dir τ₀ (b₀.vertex i) ∧
      k ∈ g.slHops (slLabel b₀.dir τ₀) b₁.dir τ₁ (b₁.vertex i) := by
  have hh' := g.relabel_mem_slHops (slLabel b₀.dir τ₀) hh
  have hk' := g.relabel_mem_slHops (slLabel b₀.dir τ₀) hk
  obtain ⟨hhA, hkB, -⟩ := hfits _ hh' _ hk' (by simp [hhk])
  rw [g.eq_relabel hh hhA] at hh'
  rw [g.eq_relabel hk hkB] at hk'
  exact ⟨hh', hk'⟩

section

variable {b₀ b₁ : Branch g} {τ₀ τ₁ : LabelTriplet} {i : ℕ}
  (hall : ∀ left right, ∃ r, g.binaryIntersectSL b₀ b₁ τ₀ τ₁ left right i = some r ∧
    IsProduct [b₀.hops left i, b₁.hops right i] r)

include hall

theorem slExist_of_forall :
    g.slExist b₀.dir τ₀ (b₀.vertex i) = true ∧ g.slExist b₁.dir τ₁ (b₁.vertex i) = true := by
  obtain ⟨r, hr, -⟩ := hall (fun _ _ => true) fun _ _ => true
  rw [binaryIntersectSL_eq] at hr
  apply Bool.and_eq_true_iff.mp
  by_contra hex
  rw [if_neg hex] at hr
  cases hr

open Classical in
/-- With a predicate that lets one right edge through there is one row, so that one edge of either
branch leads to its end. -/
theorem count_of_forall (left : EdgeAndNbrPredicate E) {h k : Hop E}
    (hh : h ∈ g.slHops (slLabel b₀.dir τ₀) b₀.dir τ₀ (b₀.vertex i))
    (hk : k ∈ g.slHops (slLabel b₀.dir τ₀) b₁.dir τ₁ (b₁.vertex i)) (hhk : h.vertex = k.vertex)
    (hleft : left (b₀.vertex i) h = true) : ((b₀.hops left i).map Hop.vertex).count k.vertex = 1 ∧
      ((b₁.hops (fun _ x => x = k) i).map Hop.vertex).count k.vertex = 1 := by
  obtain ⟨hex₀, hex₁⟩ := slExist_of_forall hall
  obtain ⟨r, hr, hprod⟩ := hall left fun _ x => x = k
  rw [binaryIntersectSL_eq, hex₀, hex₁, Bool.and_self, if_pos rfl, Option.some.injEq] at hr
  have hmem : k.vertex ∈ ((g.slHops (slLabel b₀.dir τ₀) b₀.dir τ₀ (b₀.vertex i)).filter
      (left (b₀.vertex i))).map Hop.vertex :=
    List.mem_map.mpr ⟨h, List.mem_filter.mpr ⟨hh, hleft⟩, hhk⟩
  have hone : r.count k.vertex = 1 := by
    rw [← hr, List.filter_eq, List.count_eq_one_of_mem (g.nodup_slHops ..) hk,
      List.replicate_one, List.filter_cons_of_pos (by simpa using hmem)]
    simp
  have hv := hprod k.vertex
  rw [hone] at hv
  simp only [List.map_cons, List.map_nil, List.prod_cons, List.prod_nil, mul_one] at hv
  exact mul_eq_one.mp hv.symm

theorem slFits_of_forall (hb₀ : b₀.labels = [τ₀]) (hb₁ : b₁.labels = [τ₁]) :
    g.SlFits b₀ b₁ τ₀ τ₁ i := by
  classical
  intro h hh k hk hhk
  have hbranch : ∀ x ∈ g.slHops (slLabel b₀.dir τ₀) b₀.dir τ₀ (b₀.vertex i), x.vertex = k.vertex →
      x ∈ b₀.hops (fun _ y => y = x) i := by
    intro x hx hxk
    obtain ⟨hcount, -⟩ := count_of_forall hall (fun _ y => y = x) hx hk hxk (by simp)
    have hpos : 0 < ((b₀.hops (fun _ y => y = x) i).map Hop.vertex).count k.vertex := by omega
    obtain ⟨y, hy, -⟩ := mem_map.mp (count_pos_iff.mp hpos)
    have hyx : y = x := by simpa using (mem_filter.mp hy).2
    rwa [hyx] at hy
  have hin : ∀ {x}, x ∈ b₀.hops (fun _ y => y = x) i →
      x ∈ g.hopsFrom [τ₀] b₀.dir (b₀.vertex i) := by
    intro x hx
    rw [← hb₀]
    exact (mem_filter.mp hx).1
  refine ⟨hin (hbranch h hh hhk), ?_, ?_⟩
  · obtain ⟨-, hcount⟩ := count_of_forall hall (fun _ _ => true) hh hk hhk rfl
    have hpos : 0 < ((b₁.hops (fun _ y => y = k) i).map Hop.vertex).count k.vertex := by omega
    obtain ⟨y, hy, -⟩ := mem_map.mp (count_pos_iff.mp hpos)
    obtain ⟨hy, hyk⟩ := mem_filter.mp hy
    have hyk' : y = k := by simpa using hyk
    rwa [hyk', hb₁] at hy
  · intro h' hh' hv
    by_contra hne
    obtain ⟨hcount, -⟩ := count_of_forall hall (fun _ y => y = h ∨ y = h') hh hk hhk (by simp)
    have hsub : [h, h'].Subperm (b₀.hops (fun _ y => y = h ∨ y = h') i) := by
      apply subperm_of_subset (by simpa using Ne.symm hne)
      intro x hx
      obtain rfl | rfl : x = h ∨ x = h' := by simpa using hx
      · exact mem_filter.mpr ⟨hb₀ ▸ hin (hbranch x hh hhk), by simp⟩
      · exact mem_filter.mpr ⟨hb₀ ▸ hin (hbranch x hh' (hv.trans hhk)), by simp⟩
    have htwo := Multiset.count_le_of_le k.vertex (Multiset.map_le_map
      (f := Hop.vertex) (Multiset.coe_le.mpr hsub))
    rw [Multiset.map_coe, Multiset.map_coe, Multiset.coe_count, Multiset.coe_count, hcount,
      map_cons, map_singleton, hv, hhk] at htwo
    simp at htwo

end

/-- The row of the single-label variant is the product for all predicates if and only if its edge
tables exist and its edges fit. -/
theorem binaryIntersectSL_isProduct_iff {b₀ b₁ : Branch g} {τ₀ τ₁ : LabelTriplet}
    (hb₀ : b₀.labels = [τ₀]) (hb₁ : b₁.labels = [τ₁]) (i : ℕ) :
    (∀ left right, ∃ r, g.binaryIntersectSL b₀ b₁ τ₀ τ₁ left right i = some r ∧
      IsProduct [b₀.hops left i, b₁.hops right i] r) ↔
    g.slExist b₀.dir τ₀ (b₀.vertex i) = true ∧ g.slExist b₁.dir τ₁ (b₁.vertex i) = true ∧
      g.SlFits b₀ b₁ τ₀ τ₁ i := by
  constructor
  · intro hall
    obtain ⟨hex₀, hex₁⟩ := slExist_of_forall hall
    exact ⟨hex₀, hex₁, slFits_of_forall hall hb₀ hb₁⟩
  · rintro ⟨hex₀, hex₁, hfits⟩ left right
    unfold Branch.hops
    rw [hb₀, hb₁, binaryIntersectSL_eq, hex₀, hex₁]
    refine ⟨_, rfl, fun v => ?_⟩
    rw [Multiset.coe_count, count_semijoin Hop.vertex (g.nodup_slHops ..)
      (g.nodup_hopsFrom (nodup_singleton τ₀) ..)
      (g.nodup_hopsFrom (nodup_singleton τ₁) ..) hfits fun h hh k hk => hfits.covers hh hk]
    simp

/-- The new vertices of a row are those that the expansions of all branches reach, and each stands
there for every choice of an edge in every branch. -/
def IsJoin (bs : List (Branch g)) (preds : ℕ → EdgeAndNbrPredicate E) (rowNum : ℕ) : Prop :=
  ∃ rows : ℕ → Multiset VertexRecord,
    g.intersect bs preds rowNum = some ((List.range rowNum).map rows) ∧
    ∀ i < rowNum, IsProduct
      (bs.zipIdx.map fun x => g.matching (x.1.params (preds x.2)) (x.1.vertex i)) (rows i)

theorem mapM_eq_some_map {α β : Type} (f : α → Option β) (r : α → β) : ∀ l : List α,
    l.mapM f = some (l.map r) ↔ ∀ x ∈ l, f x = some (r x)
  | [] => by simp
  | x :: l => by
    have ih := mapM_eq_some_map f r l
    cases hx : f x <;> cases hl : l.mapM f <;> simp_all

theorem isJoin_iff {bs : List (Branch g)} {preds : ℕ → EdgeAndNbrPredicate E} {rowNum : ℕ} :
    IsJoin bs preds rowNum ↔ ∀ i < rowNum, ∃ r, g.intersectRow bs preds i = some r ∧
      IsProduct (g.branchHops bs preds i) r := by
  unfold IsJoin intersect branchHops
  simp only [Branch.matching_params, mapM_eq_some_map, mem_range]
  constructor
  · rintro ⟨rows, hrows, hprod⟩ i hi
    exact ⟨rows i, hrows i hi, hprod i hi⟩
  · intro h
    choose! rows hrows using h
    exact ⟨rows, fun i hi => (hrows i hi).1, fun i hi => (hrows i hi).2⟩

/-- Every row of the result with edge aliases is a combination of edges, and every combination has
one row. -/
def IsEdgeJoin (b₀ b₁ : Branch g) (left right : EdgeAndNbrPredicate E) (i : ℕ) : Prop :=
  ∀ keepLeft keepRight : Bool,
    (binaryIntersectWithEdge keepLeft keepRight (b₀.hops left i) (b₁.hops right i) :
      Multiset (EdgeRow E)) =
    combinations keepLeft keepRight (g.matching (b₀.params left) (b₀.vertex i))
      (g.matching (b₁.params right) (b₁.vertex i))

def JoinFits (b₀ b₁ : Branch g) (rest : List (Branch g)) (rowNum : ℕ) : Prop :=
  rest = [] → ∀ τ₀ τ₁, b₀.labels = [τ₀] → b₁.labels = [τ₁] → ∀ i < rowNum,
    g.slExist b₀.dir τ₀ (b₀.vertex i) = true ∧ g.slExist b₁.dir τ₁ (b₁.vertex i) = true ∧
      g.SlFits b₀ b₁ τ₀ τ₁ i

theorem intersectRow_pair_iff (b₀ b₁ : Branch g) (rowNum : ℕ) :
    (∀ preds, ∀ i < rowNum, ∃ r, g.intersectRow [b₀, b₁] preds i = some r ∧
      IsProduct (g.branchHops [b₀, b₁] preds i) r) ↔ JoinFits b₀ b₁ [] rowNum := by
  by_cases hsl : ∃ τ₀ τ₁, b₀.labels = [τ₀] ∧ b₁.labels = [τ₁]
  · obtain ⟨τ₀, τ₁, hb₀, hb₁⟩ := hsl
    have hrow : ∀ preds i, g.intersectRow [b₀, b₁] preds i =
        g.binaryIntersectSL b₀ b₁ τ₀ τ₁ (preds 0) (preds 1) i := by
      simp [intersectRow, binaryIntersect, hb₀, hb₁]
    have hiff := binaryIntersectSL_isProduct_iff hb₀ hb₁
    constructor
    · intro hall _ τ₀' τ₁' hb₀' hb₁' i hi
      obtain rfl : τ₀ = τ₀' := by simpa [hb₀] using hb₀'
      obtain rfl : τ₁ = τ₁' := by simpa [hb₁] using hb₁'
      apply (hiff i).mp
      intro left right
      have hpreds := hall (fun j => if j = 0 then left else right) i hi
      rwa [hrow] at hpreds
    · intro hfits preds i hi
      rw [hrow]
      exact (hiff i).mpr (hfits rfl τ₀ τ₁ hb₀ hb₁ i hi) (preds 0) (preds 1)
  · apply iff_of_true
    · intro preds i _
      refine ⟨binaryIntersectML (b₀.hops (preds 0) i) (b₁.hops (preds 1) i), ?_,
        isProduct_binaryIntersectML _ _⟩
      show g.binaryIntersect b₀ b₁ (preds 0) (preds 1) i = _
      unfold binaryIntersect
      split
      case h_1 τ₀ τ₁ hb₀ hb₁ => exact absurd ⟨τ₀, τ₁, hb₀, hb₁⟩ hsl
      case h_2 => rfl
    · intro _ τ₀ τ₁ hb₀ hb₁
      exact absurd ⟨τ₀, τ₁, hb₀, hb₁⟩ hsl

theorem intersect_iff (b₀ b₁ : Branch g) (rest : List (Branch g)) (rowNum : ℕ) :
    ((∀ preds, IsJoin (b₀ :: b₁ :: rest) preds rowNum) ∧
      ∀ left right, ∀ i < rowNum, IsEdgeJoin b₀ b₁ left right i) ↔
    JoinFits b₀ b₁ rest rowNum := by
  have hedge : ∀ left right, ∀ i < rowNum, IsEdgeJoin b₀ b₁ left right i := by
    intro left right i _ keepLeft keepRight
    rw [Branch.matching_params, Branch.matching_params]
    exact binaryIntersectWithEdge_eq ..
  simp only [and_iff_left hedge, isJoin_iff]
  cases rest with
  | nil => exact intersectRow_pair_iff b₀ b₁ rowNum
  | cons b₂ rest =>
    apply iff_of_true
    · intro preds i _
      exact ⟨_, rfl, isProduct_multipleIntersect (by simp [branchHops])⟩
    · intro h
      cases h

def parallelEdges : StoredGraph (Fin 3) where
  toReadGraph := .ofEdges (fun e => if e = 2 then 1 else 0) (fun _ => 2)
    (fun τ => if τ = ⟨0, 0, 0⟩ then [0, 1, 2] else []) fun τ => by split_ifs <;> decide
  exist τ := decide (τ = ⟨0, 0, 0⟩)
  labelNum := 1
  outEntries τ v := ((if τ = ⟨0, 0, 0⟩ then [0, 1, 2] else [] : List (Fin 3)).filter
    fun e => (if e = 2 then 1 else 0) = v).length
  inEntries τ v := ((if τ = ⟨0, 0, 0⟩ then [0, 1, 2] else [] : List (Fin 3)).filter
    fun _ => 2 = v).length
  labelNum_le := by decide
  exist_lt := by simp
  outgoing_le _ _ := le_rfl
  incoming_le _ _ := le_rfl

def parallelBranch (v : ℕ) : Branch parallelEdges :=
  ⟨[⟨0, 0, 0⟩], .out, fun _ => ⟨0, v⟩, nodup_triplet, by simp [parallelEdges]⟩

/-- The common neighbour has two edges on the left and one on the right, and comes out once. -/
theorem parallel_edges_lost :
    parallelEdges.intersect [parallelBranch 0, parallelBranch 1] (fun _ _ _ => true) 1 =
        some [{⟨0, 2⟩}] ∧
      ¬ IsJoin [parallelBranch 0, parallelBranch 1] (fun _ _ _ => true) 1 := by
  have hrow : parallelEdges.intersectRow [parallelBranch 0, parallelBranch 1]
      (fun _ _ _ => true) 0 = some {⟨0, 2⟩} := by decide +kernel
  refine ⟨by decide +kernel, fun hjoin => ?_⟩
  obtain ⟨r, hr, hprod⟩ := isJoin_iff.mp hjoin 0 one_pos
  have hv := hprod ⟨0, 2⟩
  rw [hrow, Option.some.injEq] at hr
  rw [← hr] at hv
  revert hv
  decide +kernel

end StoredGraph

end Neug.Execution
