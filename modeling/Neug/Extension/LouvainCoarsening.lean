import Neug.Extension.LouvainPartition
import Neug.Lib.Modularity

/-! Coarsening over exact rationals. The sums the loops of `Compute` and `ComputeModularity` form
are those of the weight matrix of the adjacency, and the coarse adjacency has the coarse matrix. -/
namespace Neug.Louvain

open Neug.Lib Neug.Lib.Modularity Finset
open List hiding mem_filter mem_range range sum_range_succ'

theorem foldl_add_eq_sum {β : Type} (h : β → ℚ) (l : List β) (a : ℚ) :
    l.foldl (fun w e => w + h e) a = a + (l.map h).sum := by
  induction l generalizing a with
  | nil => simp
  | cons e l ih => rw [foldl_cons, ih, List.map_cons, List.sum_cons, add_assoc]

theorem sum_map_eq_sum_range {α : Type} (l : List α) (d : α) (F : α → ℚ) :
    (l.map F).sum = ∑ u ∈ range l.length, F (l.getD u d) := by
  induction l with
  | nil => simp
  | cons a l ih =>
    rw [List.map_cons, List.sum_cons, ih, length_cons, sum_range_succ', add_comm]
    simp

theorem sum_zip_eq_sum_range {α β : Type} {l : List α} {k : List β} (hlen : l.length = k.length)
    (d : α) (d' : β) (F : α × β → ℚ) :
    ((l.zip k).map F).sum = ∑ u ∈ range l.length, F (l.getD u d, k.getD u d') := by
  rw [sum_map_eq_sum_range (l.zip k) (d, d'), length_zip, ← hlen, min_self]
  refine sum_congr rfl fun u hu => ?_
  have hu := mem_range.mp hu
  rw [getD_eq_getElem _ _ (by simpa [← hlen] using hu), getD_eq_getElem _ _ hu,
    getD_eq_getElem _ _ (hlen ▸ hu), getElem_zip]

def dot (g : ℕ → ℚ) (row : List (ℕ × ℚ)) : ℚ :=
  (row.map fun e => g e.1 * e.2).sum

def single (v : ℕ) : ℕ → ℚ := fun x => if x = v then 1 else 0

/-- The weight from `u` to `v`, parallel entries added up. -/
def weight (adj : List (List (ℕ × ℚ))) (u v : ℕ) : ℚ :=
  dot (single v) (adj.getD u [])

theorem dot_eq_sum {n : ℕ} {row : List (ℕ × ℚ)} (h : ∀ e ∈ row, e.1 < n) (g : ℕ → ℚ) :
    dot g row = ∑ v ∈ range n, g v * dot (single v) row := by
  induction row with
  | nil => simp [dot]
  | cons e row ih =>
    have he : e.1 ∈ range n := mem_range.mpr (h e mem_cons_self)
    have ih := ih fun f hf => h f (mem_cons_of_mem _ hf)
    simp only [dot, List.map_cons, List.sum_cons, mul_add, sum_add_distrib] at ih ⊢
    rw [← ih]
    simp [single, he]

theorem rowWeight_eq_dot (row : List (ℕ × ℚ)) : rowWeight row = dot (fun _ => 1) row := by
  rw [rowWeight, foldl_add_eq_sum]
  simp [dot]

theorem dot_bump (g : ℕ → ℚ) (c : ℕ) (w : ℚ) (m : List (ℕ × ℚ)) :
    dot g (bump c w m) = dot g m + g c * w := by
  induction m with
  | nil => simp [bump, dot]
  | cons e m ih =>
    rw [bump]
    split_ifs with h
    · subst h
      simp only [dot, List.map_cons, List.sum_cons]
      ring
    · simp only [dot, List.map_cons, List.sum_cons] at ih ⊢
      rw [ih, add_assoc]

theorem dot_foldl_bump {β : Type} (g : ℕ → ℚ) (key : β → ℕ) (val : β → ℚ) (l : List β) :
    dot g (l.foldl (fun m b => bump (key b) (val b) m) []) =
      (l.map fun b => g (key b) * val b).sum := by
  induction l using reverseRecOn with
  | nil => rfl
  | append_singleton l b ih =>
    rw [foldl_append, foldl_cons, foldl_nil, dot_bump, ih]
    simp

theorem length_accumulateByComm {n : ℕ} {comm : List ℕ} {w : List ℚ} :
    (accumulateByComm n comm w).length = n := by
  rw [accumulateByComm, length_foldl_modify (fun b a => a + b), length_replicate]

theorem accumulateByComm_getD {n c : ℕ} {comm : List ℕ} {w : List ℚ} (hc : c < n)
    (hlen : comm.length = w.length) : (accumulateByComm n comm w).getD c 0 =
      ∑ u ∈ range comm.length with comm.getD u 0 = c, w.getD u 0 := by
  rw [getD_eq_getElem?_getD, accumulateByComm,
    getElem?_foldl_modify (fun b a => a + b), getElem?_replicate_of_lt hc,
    Option.map_some, Option.getD_some, foldl_add_eq_sum, zero_add, sum_filter,
    ← sum_zip_eq_sum_range hlen 0 0 fun e => if e.1 = c then e.2 else 0]
  generalize comm.zip w = l
  induction l with
  | nil => rfl
  | cons e l ih =>
    by_cases h : e.1 = c <;> simp [h, ih]

section

variable {adj : List (List (ℕ × ℚ))} {comm : List ℕ}

theorem Closed.getD_lt (h : Closed adj) (u : ℕ) {e : ℕ × ℚ} (he : e ∈ adj.getD u []) :
    e.1 < adj.length := by
  by_cases hu : u < adj.length
  · rw [getD_eq_getElem _ _ hu] at he
    exact h _ (getElem_mem hu) e he
  · rw [getD_eq_default _ _ (by omega)] at he
    cases he

theorem degree_weight (h : Closed adj) (u : ℕ) :
    degree (range adj.length) (weight adj) u = rowWeight (adj.getD u []) := by
  rw [rowWeight_eq_dot, dot_eq_sum fun e he => h.getD_lt u he]
  simp [degree, weight]

theorem totalWeight_eq (h : Closed adj) :
    totalWeight adj = (∑ u ∈ range adj.length, degree (range adj.length) (weight adj) u) / 2 := by
  rw [totalWeight, foldl_add_eq_sum, sum_map_eq_sum_range adj []]
  simp [degree_weight h]

theorem internalWeight_eq (h : Closed adj) (hlen : comm.length = adj.length) :
    internalWeight adj comm = within (range adj.length) (weight adj) (comm.getD · 0) := by
  have hrow : ∀ (c : ℕ) (row : List (ℕ × ℚ)) q,
      row.foldl (fun q f => if c = comm.getD f.1 0 then q + f.2 else q) q =
        q + dot (fun v => if c = comm.getD v 0 then 1 else 0) row := by
    intro c row q
    rw [dot, ← foldl_add_eq_sum]
    congr 1
    funext q f
    split_ifs <;> simp
  have hsplit : internalWeight adj comm =
      ((comm.zip adj).map fun e => dot (fun v => if e.1 = comm.getD v 0 then 1 else 0) e.2).sum := by
    simp only [internalWeight, hrow]
    rw [foldl_add_eq_sum, zero_add]
  rw [hsplit, sum_zip_eq_sum_range hlen 0 [], hlen]
  refine sum_congr rfl fun u _ => ?_
  rw [dot_eq_sum fun e he => h.getD_lt u he]
  refine sum_congr rfl fun v _ => ?_
  simp [weight]

theorem getD_lt_numComm (hlen : comm.length = adj.length) {u : ℕ} (hu : u ∈ range adj.length) :
    comm.getD u 0 ∈ range (comm.foldl max 0 + 1) := by
  have hu : u < comm.length := hlen ▸ mem_range.mp hu
  rw [getD_eq_getElem _ _ hu, mem_range, Nat.lt_succ_iff]
  exact le_foldl_max (getElem_mem hu) 0

theorem computeModularity_eq (h : Closed adj) (hlen : comm.length = adj.length) (γ m : ℚ) :
    computeModularity γ m adj comm = if m ≤ 0 then 0 else
      modularity (range adj.length) (range (comm.foldl max 0 + 1)) (weight adj) γ m
        (comm.getD · 0) := by
  have hpenalty : ∀ n, penalty m (accumulateByComm n comm (adj.map rowWeight)) =
      ∑ c ∈ range n, ((∑ u ∈ range adj.length with comm.getD u 0 = c,
        degree (range adj.length) (weight adj) u) / (2 * m)) ^ 2 := by
    intro n
    rw [penalty, foldl_add_eq_sum, zero_add, sum_map_eq_sum_range _ 0, length_accumulateByComm]
    refine sum_congr rfl fun c hc => ?_
    rw [accumulateByComm_getD (mem_range.mp hc) (by simpa using hlen), hlen, pow_two]
    congr 2 <;>
    · refine sum_congr rfl fun u hu => ?_
      have hu := mem_range.mp (mem_filter.mp hu).1
      rw [degree_weight h, getD_eq_getElem _ _ (by simpa using hu), getElem_map,
        getD_eq_getElem _ _ hu]
  rw [computeModularity]
  split_ifs
  · rfl
  · dsimp only
    rw [modularity, internalWeight_eq h hlen, hpenalty]

end

section

theorem sum_map_flatMap {α β : Type} (l : List α) (f : α → List β) (F : β → ℚ) :
    ((l.flatMap f).map F).sum = (l.map fun a => ((f a).map F).sum).sum := by
  induction l with
  | nil => rfl
  | cons a l ih => simp [ih]

theorem sum_map_filter {β : Type} (l : List β) (p : β → Prop) [DecidablePred p] (F : β → ℚ) :
    ((l.filter (fun b => p b)).map F).sum = (l.map fun b => if p b then F b else 0).sum := by
  induction l with
  | nil => rfl
  | cons b l ih => by_cases h : p b <;> simp [h, ih]

/-- What the entry `(a, b)` of the coarse matrix receives from a pair of nodes in the communities
`x` and `y`: the loop only looks at pairs with `x ≤ y` and enters them in both directions. -/
def coarseShare (a b x y : ℕ) : ℚ :=
  if a ≤ b then single a x * single b y else single b x * single a y

theorem sum_coarseUpdates (a b : ℕ) (comm : List ℕ) (cu : ℕ) (e : ℕ × ℚ) :
    ((coarseUpdates comm cu e).map fun f => if f.1 = a then single b f.2.1 * f.2.2 else 0).sum =
        coarseShare a b cu (comm.getD e.1 0) * e.2 := by
  generalize hcv : comm.getD e.1 0 = cv
  simp only [coarseUpdates, hcv, coarseShare, single]
  rcases lt_trichotomy cu cv with h | rfl | h
  · rw [if_pos h.le, if_pos h.ne]
    simp only [List.map_cons]
    split_ifs <;> first | omega | simp
  · rw [if_pos le_rfl]
    simp only [List.map_cons]
    split_ifs <;> first | omega | simp
  · rw [if_neg h.not_ge]
    split_ifs <;> first | omega | simp

/-- The graph is undirected: parallel entries added up, both directions weigh the same. -/
def Symmetric (adj : List (List (ℕ × ℚ))) : Prop :=
  ∀ u v, weight adj u v = weight adj v u

variable {adj : List (List (ℕ × ℚ))} {ids : List ℕ} {num : ℕ}

section

variable {order : ℕ → List (ℕ × ℚ) → List (ℕ × ℚ)} (horder : ∀ c m, (order c m).Perm m)
  (hadj : Closed adj) (hlen : ids.length = adj.length)
include horder hadj hlen

theorem weight_coarse {a b : ℕ} (ha : a < num) :
    weight ((coarseAdjMap num ids adj).mapIdx order) a b =
      ∑ u ∈ range adj.length, ∑ v ∈ range adj.length,
        coarseShare a b (ids.getD u 0) (ids.getD v 0) * weight adj u v := by
  have hrow : ((coarseAdjMap num ids adj).mapIdx order).getD a [] = order a
      ((((ids.zip adj).flatMap fun e => e.2.flatMap (coarseUpdates ids e.1)).filter
        (·.1 = a)).foldl (fun m e => bump e.2.1 e.2.2 m) []) := by
    rw [getD_eq_getElem?_getD, getElem?_mapIdx, getElem?_coarseAdjMap ha]
    rfl
  have hperm : ∀ (g : ℕ → ℚ) m, dot g (order a m) = dot g m :=
    fun g m => ((horder a m).map _).sum_eq
  rw [weight, hrow, hperm, dot_foldl_bump, sum_map_filter, sum_map_flatMap,
    sum_zip_eq_sum_range hlen 0 [], hlen]
  refine sum_congr rfl fun u _ => ?_
  simp only [sum_map_flatMap, sum_coarseUpdates]
  exact dot_eq_sum (fun e he => hadj.getD_lt u he)
    fun v => coarseShare a b (ids.getD u 0) (ids.getD v 0)

/-- The coarse adjacency has the coarse matrix. The direction that the loop skips is the one it
enters, since the graph is symmetric. -/
theorem isCoarse_coarsen (hsymm : Symmetric adj) :
    IsCoarse (range adj.length) (range num) (ids.getD · 0) (weight adj)
      (weight ((coarseAdjMap num ids adj).mapIdx order)) := by
  intro a ha b _
  have hshare : ∀ a b, ∑ u ∈ range adj.length, ∑ v ∈ range adj.length,
      single a (ids.getD u 0) * single b (ids.getD v 0) * weight adj u v =
        ∑ u ∈ range adj.length with ids.getD u 0 = a, ∑ v ∈ range adj.length with ids.getD v 0 = b,
          weight adj u v := by
    intro a b
    rw [sum_filter]
    refine sum_congr rfl fun u _ => ?_
    rw [sum_filter]
    by_cases h : ids.getD u 0 = a
    · simp only [single, h, if_true, one_mul, ite_mul, zero_mul]
    · simp only [single, h, if_false, zero_mul, sum_const_zero]
  rw [weight_coarse horder hadj hlen (mem_range.mp ha)]
  by_cases hab : a ≤ b
  · simp only [coarseShare, hab]
    exact hshare a b
  · simp only [coarseShare, hab, if_false]
    rw [hshare b a, sum_comm]
    exact sum_congr rfl fun u _ => sum_congr rfl fun v _ => hsymm v u

end

theorem weight_of_ge (h : Closed adj) {u v : ℕ} (huv : adj.length ≤ u ∨ adj.length ≤ v) :
    weight adj u v = 0 := by
  rcases huv with hu | hv
  · rw [weight, getD_eq_default _ _ hu]
    rfl
  · refine sum_eq_zero fun x hx => ?_
    obtain ⟨e, he, rfl⟩ := mem_map.mp hx
    have := h.getD_lt u he
    simp [single, show e.1 ≠ v by omega]

theorem symmetric_of_lt (h : Closed adj)
    (hlt : ∀ u < adj.length, ∀ v < adj.length, weight adj u v = weight adj v u) :
    Symmetric adj := by
  intro u v
  by_cases hu : u < adj.length
  · by_cases hv : v < adj.length
    · exact hlt u hu v hv
    · rw [weight_of_ge h (.inr (by omega)), weight_of_ge h (.inl (by omega))]
  · rw [weight_of_ge h (.inl (by omega)), weight_of_ge h (.inr (by omega))]

end

/-- The graph of a level is undirected and `node_weight` holds the sums of its rows. -/
structure Level.Weighted (s : Level ℚ) : Prop where
  closed : Closed s.adj
  symm : Symmetric s.adj
  nodeWeight_eq : s.nodeWeight = s.adj.map rowWeight

def Level.next (order : ℕ → List (ℕ × ℚ) → List (ℕ × ℚ)) (comm : List ℕ) (s : Level ℚ) : Level ℚ :=
  coarsen order (renumber comm).2 { s with comm := (renumber comm).1 }

/-- The levels that any assignments, one after another, lead to from the graph `G`. -/
inductive Coarsened (G : Graph ℚ) : Level ℚ → Prop
  | initial : Coarsened G (Level.initial G.adj)
  | next {s : Level ℚ} {comm : List ℕ} {order : ℕ → List (ℕ × ℚ) → List (ℕ × ℚ)} :
      Coarsened G s → comm.length = s.adj.length → (∀ c m, (order c m).Perm m) →
      Coarsened G (s.next order comm)

theorem weighted_initial {G : Graph ℚ} (h : Symmetric G.adj) : (Level.initial G.adj).Weighted :=
  ⟨G.inRange, h, rfl⟩

theorem Level.Weighted.getD_nodeWeight {s : Level ℚ} (h : s.Weighted) {u : ℕ}
    (hu : u < s.adj.length) :
    s.nodeWeight.getD u 0 = degree (range s.adj.length) (weight s.adj) u := by
  rw [h.nodeWeight_eq, degree_weight h.closed, getD_eq_getElem _ _ (by simpa using hu),
    getElem_map, getD_eq_getElem _ _ hu]

section

variable {s : Level ℚ} (h : s.Weighted) {comm : List ℕ} (hcomm : comm.length = s.adj.length)
  {order : ℕ → List (ℕ × ℚ) → List (ℕ × ℚ)} (horder : ∀ c m, (order c m).Perm m)

theorem length_next_adj (order : ℕ → List (ℕ × ℚ) → List (ℕ × ℚ)) (comm : List ℕ) (s : Level ℚ) :
    (s.next order comm).adj.length = (renumber comm).2 :=
  length_coarsen_adj _ _ _

include hcomm in
theorem ids_mem_range {u : ℕ} (hu : u ∈ range s.adj.length) :
    (renumber comm).1.getD u 0 ∈ range (s.next order comm).adj.length := by
  have hids := renumbers comm
  have hu : u < (renumber comm).1.length := by
    rw [hids.length, hcomm]
    exact mem_range.mp hu
  rw [length_next_adj, List.getD_eq_getElem _ _ hu, mem_range]
  exact hids.lt _ (List.getElem_mem hu)

include h hcomm horder

theorem isCoarse_next : IsCoarse (range s.adj.length) (range (s.next order comm).adj.length)
      ((renumber comm).1.getD · 0) (weight s.adj) (weight (s.next order comm).adj) := by
  rw [length_next_adj]
  exact isCoarse_coarsen horder h.closed ((renumbers comm).length.trans hcomm) h.symm

theorem closed_next : Closed (s.next order comm).adj :=
  closed_coarsen h.closed hcomm horder

omit horder in
theorem getD_nodeWeight_next {c : ℕ} (hc : c < (s.next order comm).adj.length) :
    (s.next order comm).nodeWeight.getD c 0 =
      ∑ u ∈ range s.adj.length with (renumber comm).1.getD u 0 = c, s.nodeWeight.getD u 0 := by
  rw [length_next_adj] at hc
  have hlen : (renumber comm).1.length = s.nodeWeight.length := by
    rw [(renumbers comm).length, hcomm, h.nodeWeight_eq, List.length_map]
  have := accumulateByComm_getD hc hlen
  rwa [(renumbers comm).length, hcomm] at this

theorem rowWeight_next {c : ℕ} (hc : c < (s.next order comm).adj.length) :
    rowWeight ((s.next order comm).adj.getD c []) = (s.next order comm).nodeWeight.getD c 0 := by
  rw [getD_nodeWeight_next h hcomm hc, ← degree_weight (closed_next h hcomm horder),
    degree_coarse (fun _ hu => ids_mem_range hcomm hu) (isCoarse_next h hcomm horder)
      (mem_range.mpr hc)]
  refine sum_congr rfl fun u hu => ?_
  rw [h.getD_nodeWeight (mem_range.mp (mem_filter.mp hu).1)]

theorem weighted_next : (s.next order comm).Weighted := by
  have hclosed := closed_next h hcomm horder
  have hcoarse := isCoarse_next h hcomm horder
  refine ⟨hclosed, symmetric_of_lt hclosed ?_, ?_⟩
  · intro a ha b hb
    rw [hcoarse a (mem_range.mpr ha) b (mem_range.mpr hb),
      hcoarse b (mem_range.mpr hb) a (mem_range.mpr ha), sum_comm]
    exact sum_congr rfl fun u _ => sum_congr rfl fun v _ => h.symm v u
  · have hlen : (s.next order comm).nodeWeight.length = (s.next order comm).adj.length := by
      rw [length_next_adj, Level.next, coarsen, length_accumulateByComm]
    refine ext_getElem (by simpa using hlen) fun c hc hc' => ?_
    have hc' : c < (s.next order comm).adj.length := by simpa using hc'
    rw [getElem_map, ← getD_eq_getElem _ 0 hc, ← rowWeight_next h hcomm horder hc',
      getD_eq_getElem _ _ hc']

theorem totalWeight_next : totalWeight (s.next order comm).adj = totalWeight s.adj := by
  rw [totalWeight_eq (closed_next h hcomm horder), totalWeight_eq h.closed,
    sum_congr rfl fun c hc => degree_coarse (fun _ hu => ids_mem_range hcomm hu)
      (isCoarse_next h hcomm horder) hc,
    sum_fiberwise_of_maps_to fun _ hu => ids_mem_range hcomm hu]

theorem computeModularity_next (γ m : ℚ) {f : List ℕ}
    (hf : f.length = (s.next order comm).adj.length) :
    computeModularity γ m (s.next order comm).adj f =
      computeModularity γ m s.adj ((renumber comm).1.map (f.getD · 0)) := by
  have hlift : ((renumber comm).1.map (f.getD · 0)).length = s.adj.length := by
    rw [length_map, (renumbers comm).length, hcomm]
  rw [computeModularity_eq (closed_next h hcomm horder) hf, computeModularity_eq h.closed hlift]
  split_ifs
  · rfl
  · rw [modularity_coarse (fun _ hu => ids_mem_range hcomm hu) (fun _ ha => getD_lt_numComm hf ha)
      (isCoarse_next h hcomm horder)]
    have hpoint : ∀ u ∈ range s.adj.length, ((renumber comm).1.map (f.getD · 0)).getD u 0 =
        f.getD ((renumber comm).1.getD u 0) 0 := by
      intro u hu
      have hu : u < (renumber comm).1.length := by
        rw [(renumbers comm).length, hcomm]
        exact mem_range.mp hu
      rw [getD_eq_getElem _ _ (by simpa using hu), getElem_map,
        getD_eq_getElem (renumber comm).1 _ hu]
    refine modularity_congr (fun u hu => getD_lt_numComm hf (ids_mem_range hcomm hu))
      (fun u hu => getD_lt_numComm hlift hu) ?_ _ γ m
    intro u hu v hv
    rw [hpoint u hu, hpoint v hv]

end

theorem Coarsened.weighted {G : Graph ℚ} (hG : Symmetric G.adj) {s : Level ℚ}
    (h : Coarsened G s) : s.Weighted := by
  induction h with
  | initial => exact weighted_initial hG
  | next _ hcomm horder ih => exact weighted_next ih hcomm horder

/-- Coarsening is faithful at every level that assignments can lead to: the total weight stays,
the weight of a coarse node is that of its members and that of its row, and every assignment of
the coarse nodes has the modularity of its lift. -/
theorem coarsening_faithful {G : Graph ℚ} (hG : Symmetric G.adj) {s : Level ℚ}
    (hs : Coarsened G s) (comm : List ℕ) (hcomm : comm.length = s.adj.length)
    (order : ℕ → List (ℕ × ℚ) → List (ℕ × ℚ)) (horder : ∀ c m, (order c m).Perm m) :
    totalWeight (s.next order comm).adj = totalWeight s.adj ∧
      (∀ c < (s.next order comm).adj.length,
        (s.next order comm).nodeWeight.getD c 0 =
            ∑ u ∈ range s.adj.length with (renumber comm).1.getD u 0 = c, s.nodeWeight.getD u 0 ∧
          (s.next order comm).nodeWeight.getD c 0 =
            rowWeight ((s.next order comm).adj.getD c [])) ∧
      ∀ (γ m : ℚ) (f : List ℕ), f.length = (s.next order comm).adj.length →
        computeModularity γ m (s.next order comm).adj f =
          computeModularity γ m s.adj ((renumber comm).1.map (f.getD · 0)) := by
  have h := hs.weighted hG
  refine ⟨totalWeight_next h hcomm horder, ?_, ?_⟩
  · intro c hc
    exact ⟨getD_nodeWeight_next h hcomm hc, (rowWeight_next h hcomm horder hc).symm⟩
  · intro γ m f hf
    exact computeModularity_next h hcomm horder γ m hf

def path : Graph ℚ where
  adj := [[(1, 1), (2, 1)], [(0, 1)], [(0, 1)]]
  inRange := by decide

theorem symmetric_path : Symmetric path.adj :=
  symmetric_of_lt path.inRange (by decide +kernel)

/-- The two ends of a path in one community, the middle in another. -/
theorem coarsening_faithful_path : Symmetric path.adj ∧ Coarsened path (Level.initial path.adj) ∧
      totalWeight ((Level.initial path.adj).next (fun _ m => m) [4, 2, 2]).adj =
        totalWeight path.adj ∧
      computeModularity 1 2 ((Level.initial path.adj).next (fun _ m => m) [4, 2, 2]).adj [5, 5] =
        computeModularity 1 2 path.adj [5, 5, 5] := by
  obtain ⟨htotal, -, hmod⟩ := coarsening_faithful symmetric_path Coarsened.initial
    [4, 2, 2] rfl (fun _ m => m) fun _ _ => .refl _
  exact ⟨symmetric_path, Coarsened.initial, htotal, hmod 1 2 [5, 5] (by decide +kernel)⟩

end Neug.Louvain
