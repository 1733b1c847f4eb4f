import Neug.Execution.PathExpand

/-! Variable-length expansion enumerates walks. The level of depth `d` holds the walks of length
`d`, for paths as such and for end vertices by their ends. -/
namespace Neug.Execution
open Neug.Lib List Option Function

variable {E : Type} {g : ReadGraph E} {p : PathExpandParams} {col : VertexColumn}

def IsExpansion (g : ReadGraph E) (p : PathExpandParams) (col : VertexColumn)
    (x : Path E × ℕ) : Prop :=
  col.vertices[x.2]? = some x.1.start ∧ x.1.IsWalk g p.labels p.dir ∧
    p.hopLower ≤ x.1.length ∧ x.1.length < p.hopUpper

def InBounds (p : PathExpandParams) (k : ℕ) : Prop := p.hopLower ≤ k ∧ k < p.hopUpper
def endRow (x : Path E × ℕ) : VertexRecord × ℕ := (x.1.endNode, x.2)

theorem mem_rows {v : VertexRecord} {i : ℕ} : (v, i) ∈ col.rows ↔ col.vertices[i]? = some v := by
  exact mem_zipIdx_iff_getElem?

section

variable {f : VertexRecord → List (Path E)}

theorem mem_rowPaths {x : Path E × ℕ} :
    x ∈ rowPaths col f ↔ ∃ v, col.vertices[x.2]? = some v ∧ x.1 ∈ f v := by
  unfold rowPaths
  rw [mem_flatMap]
  constructor
  · rintro ⟨⟨v, i⟩, hrow, hx⟩
    obtain ⟨path, hpath, rfl⟩ := mem_map.mp hx
    exact ⟨v, mem_rows.mp hrow, hpath⟩
  · rintro ⟨v, hrow, hx⟩
    exact ⟨(v, x.2), mem_rows.mpr hrow, mem_map.mpr ⟨x.1, hx, rfl⟩⟩

theorem mem_rowPaths_mk {f : VertexRecord → List (List (Hop E))} {x : Path E × ℕ} :
    x ∈ rowPaths col (fun v => (f v).map (Path.mk v)) ↔
      col.vertices[x.2]? = some x.1.start ∧ x.1.hops ∈ f x.1.start := by
  rw [mem_rowPaths]
  constructor
  · rintro ⟨v, hrow, hx⟩
    obtain ⟨w, hw, hxw⟩ := mem_map.mp hx
    rw [← hxw]
    exact ⟨hrow, hw⟩
  · rintro ⟨hrow, hx⟩
    exact ⟨_, hrow, mem_map.mpr ⟨_, hx, rfl⟩⟩

theorem nodup_rows : col.rows.Nodup := by
  refine List.Nodup.of_map Prod.snd ?_
  rw [VertexColumn.rows, zipIdx_map_snd]
  exact nodup_range'

theorem eq_of_mem_rows {x x' : VertexRecord × ℕ} (hx : x ∈ col.rows) (hx' : x' ∈ col.rows)
    (h : x.2 = x'.2) : x = x' := by
  have hrow := mem_rows.mp hx
  rw [h, mem_rows.mp hx'] at hrow
  exact Prod.ext (some.inj hrow).symm h

/-- What is computed path by path is without repetitions if it is for every row. -/
theorem nodup_map_rowPaths {γ : Type} {f : VertexRecord → List (Path E)} {F : Path E → γ} :
    ((rowPaths col f).map fun x => (F x.1, x.2)).Nodup ↔
      ∀ v ∈ col.vertices, ((f v).map F).Nodup := by
  have hmap : (rowPaths col f).map (fun x => (F x.1, x.2)) =
      col.rows.flatMap fun x => ((f x.1).map F).map fun c => (c, x.2) := by
    unfold rowPaths
    rw [map_flatMap]
    simp [comp_def]
  rw [hmap, nodup_flatMap]
  have hinj : ∀ i : ℕ, Function.Injective fun c : γ => (c, i) := fun i _ _ h => (Prod.mk.inj h).1
  constructor
  · rintro ⟨h, -⟩ v hv
    obtain ⟨i, hi⟩ := getElem?_of_mem hv
    exact (nodup_map_iff (hinj i)).mp (h (v, i) (mem_rows.mpr hi))
  · intro h
    refine ⟨fun x hx => (h x.1 ?_).map (hinj x.2), ?_⟩
    · exact mem_of_getElem? (mem_rows.mp hx)
    · refine nodup_rows.imp_of_mem fun {x x'} hx hx' hne => ?_
      rintro y hy hy'
      obtain ⟨c, -, rfl⟩ := mem_map.mp hy
      obtain ⟨c', -, heq⟩ := mem_map.mp hy'
      exact hne (eq_of_mem_rows hx hx' (Prod.mk.inj heq).2.symm)

theorem enumerates_rowPaths {γ : Type} (F : Path E → γ) (want : VertexRecord → γ → Prop) :
    Enumerates ((rowPaths col f).map fun x => (F x.1, x.2))
        (fun y => ∃ v, col.vertices[y.2]? = some v ∧ want v y.1) ↔
      ∀ v ∈ col.vertices, Enumerates ((f v).map F) (want v) := by
  have hmem : ∀ y, y ∈ (rowPaths col f).map (fun x => (F x.1, x.2)) ↔
      ∃ v, col.vertices[y.2]? = some v ∧ y.1 ∈ (f v).map F := by
    intro y
    rw [List.mem_map]
    constructor
    · rintro ⟨x, hx, rfl⟩
      obtain ⟨v, hrow, hpath⟩ := mem_rowPaths.mp hx
      exact ⟨v, hrow, mem_map_of_mem hpath⟩
    · rintro ⟨v, hrow, hy⟩
      obtain ⟨path, hpath, hF⟩ := mem_map.mp hy
      exact ⟨(path, y.2), mem_rowPaths.mpr ⟨v, hrow, hpath⟩, Prod.ext hF rfl⟩
  constructor
  · rintro ⟨hnodup, henum⟩ v hv
    obtain ⟨i, hi⟩ := getElem?_of_mem hv
    have hsame : ∀ v', col.vertices[i]? = some v' → v' = v := fun v' h => some.inj (h.symm.trans hi)
    refine ⟨nodup_map_rowPaths.mp hnodup v hv, fun c => ⟨fun hc => ?_, fun hc => ?_⟩⟩
    · obtain ⟨v', hv', hwant⟩ := (henum (c, i)).mp ((hmem (c, i)).mpr ⟨v, hi, hc⟩)
      rwa [hsame v' hv'] at hwant
    · obtain ⟨v', hv', hin⟩ := (hmem (c, i)).mp ((henum (c, i)).mpr ⟨v, hi, hc⟩)
      rwa [hsame v' hv'] at hin
  · intro h
    refine ⟨nodup_map_rowPaths.mpr fun v hv => (h v hv).1, fun y => ?_⟩
    rw [hmem]
    refine exists_congr fun v => and_congr_right fun hrow => ?_
    exact (h v (mem_of_getElem? hrow)).2 y.1

theorem nodup_rowPaths_mk {f : VertexRecord → List (List (Hop E))} (h : ∀ v, (f v).Nodup) :
    (rowPaths col fun v => (f v).map (Path.mk v)).Nodup := by
  have hall : ((rowPaths col fun v => (f v).map (Path.mk v)).map fun x => (id x.1, x.2)).Nodup :=
    nodup_map_rowPaths.mpr fun v _ => by
      rw [List.map_id]
      exact (h v).map fun _ _ heq => (Path.mk.inj heq).2
  simpa using hall

end

def startPaths (rows : List (VertexRecord × ℕ)) : List (Path E × ℕ) :=
  rows.map fun x => (⟨x.1, []⟩, x.2)

theorem iterate_expandPaths (d : ℕ) : (expandPaths g p)^[d] (startPaths col.rows) =
    rowPaths col fun v => ((g.moves p.labels p.dir).walks v d).map (Path.mk v) := by
  induction d with
  | zero =>
    simp [Moves.walks, startPaths, rowPaths, ← map_eq_flatMap]
  | succ d ih =>
    rw [iterate_succ_apply', ih]
    unfold expandPaths rowPaths
    rw [flatMap_assoc]
    congr 1
    funext x
    dsimp only
    rw [Moves.walks, flatMap_map, flatMap_map, map_flatMap, map_flatMap]
    congr 1
    funext w
    rw [Moves.extend, List.map_map, List.map_map, Path.endNode_eq_last g p.labels p.dir]
    rfl

theorem iterate_expandVertices (rows : List (VertexRecord × ℕ)) (d : ℕ) :
    (expandVertices g p)^[d] rows = ((expandPaths g p)^[d] (startPaths rows)).map endRow := by
  induction d with
  | zero =>
    simp only [iterate_zero, id_eq, startPaths, List.map_map]
    exact (map_id rows).symm
  | succ d ih =>
    rw [iterate_succ_apply', iterate_succ_apply', ih]
    unfold expandVertices expandPaths
    rw [flatMap_map, map_flatMap]
    congr 1
    funext x
    rw [List.map_map]
    rfl

theorem iterate_expandVertices_nil (d : ℕ) : (expandVertices g p)^[d] [] = [] :=
  iterate_fixed rfl d

/-- What a loop pushes in `rounds` rounds from a depth on. -/
def pushed {γ : Type} (lower : ℤ) (expand : List γ → List γ) (rounds depth : ℕ) (l : List γ) :
    List γ :=
  (List.range rounds).flatMap fun k => if lower ≤ ↑(depth + k) then expand^[k] l else []

section

variable {γ δ : Type} {lower : ℤ} {expand : List γ → List γ} {depth : ℕ} {l : List γ}

theorem pushed_succ (rounds : ℕ) : pushed lower expand (rounds + 1) depth l =
    (if lower ≤ depth then l else []) ++ pushed lower expand rounds (depth + 1) (expand l) := by
  unfold pushed
  rw [range_succ_eq_map, flatMap_cons, flatMap_map]
  simp [add_assoc, add_comm 1]

theorem pushed_map (f : γ → δ) {expand' : List δ → List δ} {l' : List δ}
    (h : ∀ k, expand'^[k] l' = (expand^[k] l).map f) (rounds : ℕ) :
    pushed lower expand' rounds depth l' = (pushed lower expand rounds depth l).map f := by
  unfold pushed
  rw [map_flatMap]
  congr 1
  funext k
  rw [h]
  split_ifs <;> rfl

theorem mem_pushed {x : γ} {rounds : ℕ} : x ∈ pushed lower expand rounds depth l ↔
    ∃ k < rounds, lower ≤ ↑(depth + k) ∧ x ∈ expand^[k] l := by
  unfold pushed
  rw [mem_flatMap]
  refine exists_congr fun k => ?_
  rw [mem_range]
  split_ifs with hk
  · exact ⟨fun h => ⟨h.1, hk, h.2⟩, fun h => ⟨h.1, h.2.2⟩⟩
  · exact ⟨fun h => absurd h.2 not_mem_nil, fun h => absurd h.2.1 hk⟩

end

theorem arbitraryLoop_eq (rounds depth : ℕ) (input : List (Path E × ℕ))
    (h : depth + rounds = p.hopUpper.toNat) : arbitraryLoop g p rounds depth input =
      pushed p.hopLower (expandPaths g p) rounds depth input := by
  induction rounds generalizing depth input with
  | zero => rfl
  | succ rounds ih =>
    rw [arbitraryLoop, pushed_succ, if_pos (by omega)]
    by_cases hlast : p.hopUpper ≤ depth + 1
    · obtain rfl : rounds = 0 := by omega
      rw [pushed, range_zero, flatMap_nil, append_nil]
      exact if_pos hlast
    · refine (if_neg hlast).trans ?_
      have hmore : depth + 1 < p.hopUpper := by omega
      rw [if_pos hmore, ih (depth + 1) _ (by omega)]

theorem pathExpandPArbitrary_eq : pathExpandPArbitrary g p col =
    pushed p.hopLower (expandPaths g p) p.hopUpper.toNat 0 (startPaths col.rows) :=
  arbitraryLoop_eq _ _ _ (zero_add _)

/-- `path_expand_p_arbitrary` returns the walks between the bounds, each once. -/
theorem enumerates_pathExpandPArbitrary (g : ReadGraph E) (p : PathExpandParams)
    (col : VertexColumn) : Enumerates (pathExpandPArbitrary g p col) (IsExpansion g p col) := by
  rw [pathExpandPArbitrary_eq]
  have hmem : ∀ (k : ℕ) (x : Path E × ℕ), x ∈ (expandPaths g p)^[k] (startPaths col.rows) ↔
      col.vertices[x.2]? = some x.1.start ∧ x.1.IsWalk g p.labels p.dir ∧ x.1.length = k := by
    intro k x
    rw [iterate_expandPaths, mem_rowPaths_mk]
    exact and_congr_right fun _ => Moves.mem_walks _
  constructor
  · refine nodup_flatMap.mpr ⟨fun k _ => ?_, ?_⟩
    · split_ifs
      · rw [iterate_expandPaths]
        exact nodup_rowPaths_mk fun v => Moves.nodup_walks _ (g.nodup_hopsFrom p.nodup p.dir)
      · exact nodup_nil
    · refine nodup_range.imp fun {k k'} hne => ?_
      rintro x hx hx'
      dsimp only at hx hx'
      split_ifs at hx hx'
      · exact hne (((hmem k x).mp hx).2.2.symm.trans ((hmem k' x).mp hx').2.2)
      all_goals simp at hx hx'
  · intro x
    rw [mem_pushed]
    constructor
    · rintro ⟨k, hk, hlow, hx⟩
      obtain ⟨hrow, hwalk, hlen⟩ := (hmem k x).mp hx
      exact ⟨hrow, hwalk, by omega, by omega⟩
    · rintro ⟨hrow, hwalk, hlow, hup⟩
      exact ⟨x.1.length, by omega, by omega, (hmem _ x).mpr ⟨hrow, hwalk, rfl⟩⟩

namespace VertexColumnBuilder

variable {b b' : VertexColumnBuilder} {l l' : List (VertexRecord × ℕ)}

theorem pushAll_append : pushAll (l ++ l') b = (pushAll l b).bind (pushAll l') := by
  induction l generalizing b with
  | nil => rfl
  | cons x l ih =>
    rw [cons_append, pushAll, pushAll, bind_assoc]
    congr 1
    funext b'
    exact ih

theorem pushAll_eq_some (h : ∀ x ∈ l, x.1.label < b.labelsBitmap.length) :
    ∃ b', pushAll l b = some b' ∧ b'.vertices = b.vertices ++ l.map Prod.fst ∧
      b'.shuffleOffset = b.shuffleOffset ++ l.map Prod.snd := by
  induction l generalizing b with
  | nil => exact ⟨b, rfl, by simp, by simp⟩
  | cons x l ih =>
    have hx : x.1.label < b.labelsBitmap.length := h x mem_cons_self
    rw [pushAll, pushBack, if_pos hx]
    obtain ⟨b', hb', hv, ho⟩ := @ih ⟨b.vertices ++ [x.1], b.labelsBitmap.set x.1.label true,
      b.shuffleOffset ++ [x.2]⟩ fun y hy => by
        rw [length_set]
        exact h y (mem_cons_of_mem _ hy)
    exact ⟨b', hb', by rw [hv]; simp, by rw [ho]; simp⟩

theorem label_lt_of_pushAll (h : pushAll l b = some b') :
    ∀ x ∈ l, x.1.label < b.labelsBitmap.length := by
  induction l generalizing b with
  | nil => exact fun x hx => absurd hx not_mem_nil
  | cons y l ih =>
    obtain ⟨b₁, hpush, hrest⟩ := bind_eq_some_iff.mp h
    unfold pushBack at hpush
    split_ifs at hpush with hy
    cases hpush
    intro x hx
    rcases mem_cons.mp hx with rfl | hx
    · exact hy
    · have := ih hrest x hx
      rwa [length_set] at this

/-- A new builder takes the vertices with labels up to the largest one it was made for. -/
theorem pushAll_create {labels : List ℕ} :
    (∃ b, pushAll l (create labels) = some b) ↔ ∀ x ∈ l, x.1.label ≤ labels.foldr max 0 := by
  have hlen : (create labels).labelsBitmap.length = labels.foldr max 0 + 1 := by simp [create]
  constructor
  · rintro ⟨b, hb⟩ x hx
    have := label_lt_of_pushAll hb x hx
    omega
  · intro h
    obtain ⟨b, hb, -, -⟩ := pushAll_eq_some fun x hx => by
      rw [hlen]
      exact Nat.lt_succ_of_le (h x hx)
    exact ⟨b, hb⟩

theorem rows_of_pushAll {labels : List ℕ} (h : pushAll l (create labels) = some b) :
    b.rows = l := by
  obtain ⟨b', hb', hv, ho⟩ := pushAll_eq_some (label_lt_of_pushAll h)
  obtain rfl : b = b' := some.inj (h.symm.trans hb')
  rw [rows, hv, ho]
  exact (zip_of_prod rfl rfl).symm

end VertexColumnBuilder

theorem expandLoop_eq (rounds depth : ℕ) (output : List (VertexRecord × ℕ))
    (b : VertexColumnBuilder) (h : depth + rounds = p.hopUpper.toNat) :
    expandLoop g p rounds depth output b =
      b.pushAll (pushed p.hopLower (expandVertices g p) rounds depth output) := by
  induction rounds generalizing depth output b with
  | zero => rfl
  | succ rounds ih =>
    by_cases hnil : output = []
    · have hempty : pushed p.hopLower (expandVertices g p) (rounds + 1) depth [] = [] := by
        unfold pushed
        simp only [iterate_expandVertices_nil, ite_self]
        exact flatMap_eq_nil_iff.mpr fun _ _ => rfl
      rw [expandLoop, if_neg (by simp [hnil]), hnil, hempty]
      rfl
    rw [expandLoop, pushed_succ, if_pos ⟨by omega, hnil⟩, VertexColumnBuilder.pushAll_append]
    have hpush : (if p.hopLower ≤ depth then b.pushAll output else some b) =
        b.pushAll (if p.hopLower ≤ depth then output else []) := by
      split_ifs <;> rfl
    congr 1
    funext b'
    split_ifs with hlast
    · obtain rfl : rounds = 0 := by omega
      rfl
    · exact ih (depth + 1) _ b' (by omega)

theorem expandGeneral_eq : expandGeneral g p col =
    (VertexColumnBuilder.create (builderLabels p)).pushAll
      ((pathExpandPArbitrary g p col).map endRow) := by
  rw [expandGeneral, expandLoop_eq _ _ _ _ (zero_add _), pathExpandPArbitrary_eq,
    pushed_map endRow (iterate_expandVertices col.rows)]

theorem le_foldr_max {l : List ℕ} {a : ℕ} (h : a ∈ l) : a ≤ l.foldr max 0 := by
  induction l with
  | nil => cases h
  | cons b l ih =>
    rcases mem_cons.mp h with rfl | h
    · exact le_max_left _ _
    · exact (ih h).trans (le_max_right _ _)

theorem label_mem_builderLabels {u : VertexRecord} {h : Hop E}
    (hh : h ∈ g.hopsFrom p.labels p.dir u) : h.vertex.label ∈ builderLabels p := by
  have hhop := g.mem_hopsFrom.mp hh
  unfold builderLabels
  rcases hhop with ⟨-, hdir, hτ, -⟩ | ⟨-, hdir, hτ, -⟩ <;>
  · cases hd : p.dir <;> simp only [hd, ne_eq, not_true_eq_false] at hdir ⊢
    all_goals
      refine mem_flatMap.mpr ⟨_, hτ, ?_⟩
      try split_ifs
      all_goals simp

/-- The input vertices are pushed themselves where the bounds allow a walk of length 0. -/
def StartLabelsFit (p : PathExpandParams) (col : VertexColumn) : Prop :=
  p.hopLower ≤ 0 → 0 < p.hopUpper → ∀ v ∈ col.vertices, v.label ≤ (builderLabels p).foldr max 0

theorem labels_fit_iff : (∀ x ∈ (pathExpandPArbitrary g p col).map endRow,
    x.1.label ≤ (builderLabels p).foldr max 0) ↔ StartLabelsFit p col := by
  have henum := (enumerates_pathExpandPArbitrary g p col).2
  constructor
  · intro h hlow hup v hv
    obtain ⟨i, hi⟩ := getElem?_of_mem hv
    exact h _ (mem_map_of_mem ((henum (⟨v, []⟩, i)).mpr
      ⟨hi, Moves.isWalk_nil _ _, by simpa [Path.length] using hlow,
        by simpa [Path.length] using hup⟩))
  · intro h y hy
    obtain ⟨⟨⟨start, hops⟩, i⟩, hx, rfl⟩ := mem_map.mp hy
    obtain ⟨hrow, hwalk, hlow, hup⟩ := (henum _).mp hx
    cases hops with
    | nil =>
      exact h (by simpa [Path.length] using hlow) (by simpa [Path.length] using hup) start
        (mem_of_getElem? hrow)
    | cons hop hops => exact le_foldr_max (label_mem_builderLabels hwalk.2)

/-- The general loop is defined exactly where the labels of the input fit. -/
theorem expandGeneral_defined_iff :
    (∃ b, expandGeneral g p col = some b) ↔ StartLabelsFit p col := by
  rw [expandGeneral_eq, VertexColumnBuilder.pushAll_create, labels_fit_iff]

section

variable {τ : LabelTriplet} {vids : List ℕ} {lower upper : ℤ} {dir : Direction}

def labelRow (τ : LabelTriplet) (x : ℕ × ℕ) : VertexRecord × ℕ := (⟨τ.srcLabel, x.1⟩, x.2)

theorem singleNext_perm (hself : τ.srcLabel = τ.dstLabel) (dir : Direction) (v i : ℕ) :
    ((singleNext g τ dir v).map fun y => labelRow τ (y, i)).Perm
      ((g.hopsFrom [τ] dir ⟨τ.srcLabel, v⟩).map fun h => (h.vertex, i)) := by
  have hout : (g.outHops [τ] ⟨τ.srcLabel, v⟩).map (fun h => (h.vertex, i)) =
      ((g.outgoing τ v).map g.dst).map fun y => labelRow τ (y, i) := by
    simp [ReadGraph.outHops, labelRow, hself]
  have hinn : (g.inHops [τ] ⟨τ.srcLabel, v⟩).map (fun h => (h.vertex, i)) =
      ((g.incoming τ v).map g.src).map fun y => labelRow τ (y, i) := by
    simp [ReadGraph.inHops, labelRow, hself]
  cases dir with
  | out =>
    rw [ReadGraph.hopsFrom, hout]
    rfl
  | inn =>
    rw [ReadGraph.hopsFrom, hinn]
    rfl
  | both =>
    rw [ReadGraph.hopsFrom, singleNext, map_append, map_append, hout, hinn]
    exact perm_append_comm

/-- The levels of the single-label loop are those of the general one, in another order. -/
theorem iterate_expandSingle_perm (hp : p.labels = [τ]) (hself : τ.srcLabel = τ.dstLabel)
    (l : List (ℕ × ℕ)) (k : ℕ) : (((expandSingle g τ p.dir)^[k] l).map (labelRow τ)).Perm
      ((expandVertices g p)^[k] (l.map (labelRow τ))) := by
  induction k with
  | zero => exact .refl _
  | succ k ih =>
    rw [iterate_succ_apply', iterate_succ_apply']
    refine .trans ?_ (ih.flatMap_right _)
    unfold expandSingle
    rw [map_flatMap, flatMap_map]
    refine List.Perm.flatMap_left _ fun x _ => ?_
    rw [List.map_map, hp]
    exact singleNext_perm hself p.dir x.1 x.2

theorem singleLoop_eq (rounds depth : ℕ) (l : List (ℕ × ℕ)) (h : upper ≤ depth + rounds) :
    singleLoop g τ dir lower upper rounds depth l =
      pushed lower (expandSingle g τ dir) (upper.toNat - depth) depth l := by
  induction rounds generalizing depth l with
  | zero =>
    obtain hzero : upper.toNat - depth = 0 := by omega
    rw [hzero]
    rfl
  | succ rounds ih =>
    by_cases hnil : l = []
    · have hempty : ∀ k, (expandSingle g τ dir)^[k] [] = [] := fun k => iterate_fixed rfl k
      rw [hnil]
      unfold pushed
      simp only [hempty, ite_self]
      exact (flatMap_eq_nil_iff.mpr fun _ _ => rfl).symm
    have hnext := ih (depth + 1) (expandSingle g τ dir l) (by push_cast; omega)
    rw [singleLoop, if_neg hnil]
    by_cases hin : lower ≤ depth ∧ depth < upper
    · obtain ⟨k, hk⟩ : ∃ k, upper.toNat - depth = k + 1 := ⟨upper.toNat - depth - 1, by omega⟩
      rw [hk, pushed_succ, if_pos hin.1]
      split_ifs with hlast
      · obtain rfl : k = 0 := by omega
        rw [pushed, range_zero, flatMap_nil, append_nil]
      · rw [hnext]
        congr 2
        omega
    · rw [if_neg hin]
      by_cases hlow : depth < lower
      · rw [if_pos hlow, hnext]
        by_cases hup : depth < upper
        · obtain ⟨k, hk⟩ : ∃ k, upper.toNat - depth = k + 1 := ⟨upper.toNat - depth - 1, by omega⟩
          rw [hk, pushed_succ, if_neg (by omega)]
          congr 1
          omega
        · rw [show upper.toNat - depth = 0 by omega, show upper.toNat - (depth + 1) = 0 by omega]
          rfl
      · rw [if_neg hlow, show upper.toNat - depth = 0 by omega]
        rfl

def SingleBoundsFit (lower upper : ℤ) : Prop := upper = 1 → lower = 0 ∨ lower = 1

theorem pathExpandVertexWithoutPredicate_eq (h : SingleBoundsFit lower upper) :
    pathExpandVertexWithoutPredicate g τ vids dir lower upper =
      some (pushed lower (expandSingle g τ dir) upper.toNat 0 vids.zipIdx) := by
  unfold pathExpandVertexWithoutPredicate
  split_ifs with heq hone hzero
  · refine congrArg some (flatMap_eq_nil_iff.mpr fun k hk => ?_).symm
    rw [if_neg (by have := mem_range.mp hk; omega)]
  · subst hone hzero
    simp [pushed]
  · rcases h hone with hlow | hlow
    · exact absurd hlow hzero
    · exact absurd (hone.trans hlow.symm) heq
  · rw [singleLoop_eq _ _ _ (by omega), Nat.sub_zero]

theorem pathExpandVertexWithoutPredicate_eq_none (h : ¬ SingleBoundsFit lower upper) :
    pathExpandVertexWithoutPredicate g τ vids dir lower upper = none := by
  unfold SingleBoundsFit at h
  push Not at h
  obtain ⟨hone, hzero, hne⟩ := h
  rw [pathExpandVertexWithoutPredicate, if_neg (by omega), if_pos hone, if_neg hzero]

theorem singleLabel_eq_some (h : singleLabel p col = some (τ, vids)) :
    col = .single τ.srcLabel vids ∧ p.labels = [τ] ∧ τ.srcLabel = τ.dstLabel := by
  unfold singleLabel at h
  split at h
  · split at h
    · next hl =>
      split_ifs at h with hself
      cases h
      exact ⟨by rw [hself.2], hl, hself.1⟩
    · cases h
  · cases h

theorem expandSingleLabel_perm (hsingle : singleLabel p col = some (τ, vids))
    (h : SingleBoundsFit p.hopLower p.hopUpper) : ∃ r, expandSingleLabel g p τ vids = some r ∧
      r.Perm ((pathExpandPArbitrary g p col).map endRow) := by
  obtain ⟨hcol, hp, hself⟩ := singleLabel_eq_some hsingle
  rw [expandSingleLabel, pathExpandVertexWithoutPredicate_eq h, map_some]
  refine ⟨_, rfl, ?_⟩
  have hrows : col.rows = vids.zipIdx.map (labelRow τ) := by
    rw [hcol, VertexColumn.rows, VertexColumn.vertices, zipIdx_map]
    rfl
  rw [pathExpandPArbitrary_eq, ← pushed_map endRow (iterate_expandVertices col.rows)]
  unfold pushed
  rw [map_flatMap, hrows]
  refine List.Perm.flatMap_left _ fun k _ => ?_
  split_ifs
  · exact iterate_expandSingle_perm hp hself _ k
  · exact .refl _

end

/-- `edge_expand_v` returns the ends of the walks between the bounds, each as often as there are
walks that end there. -/
def ExpandsToEnds (g : ReadGraph E) (p : PathExpandParams) (col : VertexColumn) : Prop :=
  ∃ r, edgeExpandV g p col = some r ∧
    ∃ ws, Enumerates ws (IsExpansion g p col) ∧ r.Perm (ws.map endRow)

/-- `path_expand_p_arbitrary` returns the walks themselves. -/
def ExpandsToPaths (g : ReadGraph E) (p : PathExpandParams) (col : VertexColumn) : Prop :=
  Enumerates (pathExpandPArbitrary g p col) (IsExpansion g p col)

def SingleLabelAgrees (g : ReadGraph E) (p : PathExpandParams) (col : VertexColumn) : Prop :=
  ∀ τ vids, singleLabel p col = some (τ, vids) → ∃ r b, expandSingleLabel g p τ vids = some r ∧
    expandGeneral g p col = some b ∧ r.Perm b.rows

/-- The single-label branch has bounds that pass its check, and the general one input labels that
the builder has room for. -/
def Expandable (p : PathExpandParams) (col : VertexColumn) : Prop :=
  if (singleLabel p col).isSome then SingleBoundsFit p.hopLower p.hopUpper
  else StartLabelsFit p col

theorem startLabelsFit_of_singleLabel {τ : LabelTriplet} {vids : List ℕ}
    (h : singleLabel p col = some (τ, vids)) : StartLabelsFit p col := by
  obtain ⟨hcol, hp, hself⟩ := singleLabel_eq_some h
  intro _ _ v hv
  rw [hcol] at hv
  obtain ⟨x, -, rfl⟩ := mem_map.mp hv
  refine le_foldr_max ?_
  unfold builderLabels
  rw [hp]
  cases p.dir <;> simp [hself] <;> split_ifs <;> simp

def edgeless : ReadGraph ℕ where
  src := id
  dst := id
  edges _ := []
  outgoing _ _ := []
  incoming _ _ := []
  nodup _ := List.nodup_nil
  outgoing_perm _ _ := .refl _
  incoming_perm _ _ := .refl _

def upToOneHop : PathExpandParams := ⟨[⟨0, 0, 0⟩], .out, 0, 2, nodup_triplet⟩

end Neug.Execution
