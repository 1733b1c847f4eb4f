import Neug.Extension.LouvainCoarsening

/-! How modularity changes in a sweep of `LocalMove`. Every node decides on the same old assignment,
so the change is the sum of the single gains and of an interaction between the nodes that move. -/
namespace Neug.Louvain

open Neug.Lib.Modularity Finset
open List hiding mem_range range sum_le_sum

theorem nodup_keys_commEdgeWeight (comm : List ℕ) (row : List (ℕ × ℚ)) :
    ((commEdgeWeight comm row).map Prod.fst).Nodup := by
  unfold commEdgeWeight
  induction row using reverseRecOn with
  | nil => exact nodup_nil
  | append_singleton row e ih =>
    rw [foldl_append, foldl_cons, foldl_nil, keys_bump]
    split_ifs with h
    · exact ih
    · exact ih.append (nodup_singleton _) (disjoint_singleton.mpr h)

theorem dot_single_of_mem {m : List (ℕ × ℚ)} (h : (m.map Prod.fst).Nodup) {e : ℕ × ℚ}
    (he : e ∈ m) : dot (single e.1) m = e.2 := by
  induction m with
  | nil => cases he
  | cons f m ih =>
    rw [List.map_cons, nodup_cons] at h
    rcases mem_cons.mp he with rfl | he
    · have hrest : dot (single e.1) m = 0 := by
        refine sum_eq_zero fun x hx => ?_
        obtain ⟨g, hg, rfl⟩ := mem_map.mp hx
        have hne : g.1 ≠ e.1 := fun heq => h.1 (heq ▸ mem_map_of_mem hg)
        simp [single, hne]
      simp only [dot, List.map_cons, List.sum_cons] at hrest ⊢
      rw [hrest]
      simp [single]
    · have hne : f.1 ≠ e.1 := fun heq => h.1 (heq ▸ mem_map_of_mem he)
      have := ih h.2 he
      simp only [dot, List.map_cons, List.sum_cons] at this ⊢
      rw [this]
      simp [single, hne]

theorem lookup_getD_eq_dot {m : List (ℕ × ℚ)} (h : (m.map Prod.fst).Nodup) (c : ℕ) :
    (m.lookup c).getD 0 = dot (single c) m := by
  induction m with
  | nil => rfl
  | cons f m ih =>
    obtain ⟨d, w⟩ := f
    by_cases hd : c = d
    · subst hd
      rw [dot_single_of_mem h mem_cons_self, lookup_cons_self]
      rfl
    · rw [List.map_cons, nodup_cons] at h
      have hne : (c == d) = false := by simpa using hd
      rw [lookup_cons, hne, ih h.2]
      simp [dot, single, Ne.symm hd]

theorem dot_commEdgeWeight (comm : List ℕ) (row : List (ℕ × ℚ)) (c : ℕ) :
    dot (single c) (commEdgeWeight comm row) = dot (fun v => single c (comm.getD v 0)) row :=
  dot_foldl_bump (single c) (fun e : ℕ × ℚ => comm.getD e.1 0) Prod.snd row

/-- What `delta` is for the community `c`. -/
def joinValue (γ k : ℚ) (comm : List ℕ) (commTotal : List ℚ) (row : List (ℕ × ℚ)) (c : ℕ) : ℚ :=
  dot (fun v => single c (comm.getD v 0)) row - γ * k * commTotal.getD c 0

/-- What `delta` has to beat. -/
def stayValue (γ k ki : ℚ) (comm : List ℕ) (commTotal : List ℚ) (row : List (ℕ × ℚ)) (old : ℕ) :
    ℚ :=
  dot (fun v => single old (comm.getD v 0)) row - γ * k * (commTotal.getD old 0 - ki)

/-- The loop over the neighbouring communities keeps the old one or ends with one it has met whose
`delta` beats staying. -/
theorem considered_better (γ k : ℚ) (commTotal : List ℚ) (old : ℕ) (l : List (ℕ × ℚ))
    (stay : ℚ) (best : ℚ × ℕ) (hbest : stay ≤ best.1) :
    l.foldl (consider γ k commTotal old) best = best ∨
      ∃ e ∈ l, e.1 ≠ old ∧ (l.foldl (consider γ k commTotal old) best).2 = e.1 ∧
        stay < e.2 - γ * k * commTotal.getD e.1 0 := by
  induction l generalizing best with
  | nil => exact .inl rfl
  | cons e l ih =>
    rw [foldl_cons]
    have hstep : consider γ k commTotal old best e = best ∨
        e.1 ≠ old ∧ best.1 < e.2 - γ * k * commTotal.getD e.1 0 ∧
          consider γ k commTotal old best e = (e.2 - γ * k * commTotal.getD e.1 0, e.1) := by
      simp only [consider]
      split_ifs with hold hlt
      · exact .inl rfl
      · exact .inr ⟨hold, hlt, rfl⟩
      · exact .inl rfl
    rcases hstep with hstep | ⟨hold, hlt, hstep⟩
    · rw [hstep]
      rcases ih best hbest with h | ⟨f, hf, h⟩
      · exact .inl h
      · exact .inr ⟨f, mem_cons_of_mem _ hf, h⟩
    · rw [hstep]
      have hbetter := hbest.trans_lt hlt
      rcases ih (e.2 - γ * k * commTotal.getD e.1 0, e.1) hbetter.le with h | ⟨f, hf, h⟩
      · exact .inr ⟨e, mem_cons_self, hold, by rw [h], hbetter⟩
      · exact .inr ⟨f, mem_cons_of_mem _ hf, h⟩

theorem bestComm_eq (γ m : ℚ) (order : List (ℕ × ℚ) → List (ℕ × ℚ)) (comm : List ℕ)
    (commTotal : List ℚ) (row : List (ℕ × ℚ)) (ki : ℚ) (old : ℕ) :
    bestComm γ m order comm commTotal row ki old =
      ((order (commEdgeWeight comm row)).foldl (consider γ (ki / (2 * m)) commTotal old)
        (stayValue γ (ki / (2 * m)) ki comm commTotal row old, old)).2 := by
  rw [bestComm, lookup_getD_eq_dot (nodup_keys_commEdgeWeight comm row), dot_commEdgeWeight]
  rfl

theorem stayValue_lt_bestComm {γ m : ℚ} {order : List (ℕ × ℚ) → List (ℕ × ℚ)}
    (horder : ∀ l, (order l).Perm l) {comm : List ℕ} {commTotal : List ℚ} {row : List (ℕ × ℚ)}
    {ki : ℚ} {old : ℕ} (h : bestComm γ m order comm commTotal row ki old ≠ old) :
    stayValue γ (ki / (2 * m)) ki comm commTotal row old <
      joinValue γ (ki / (2 * m)) comm commTotal row
        (bestComm γ m order comm commTotal row ki old) := by
  rw [bestComm_eq] at h ⊢
  rcases considered_better γ (ki / (2 * m)) commTotal old (order (commEdgeWeight comm row)) _
    (stayValue γ (ki / (2 * m)) ki comm commTotal row old, old) le_rfl with
      hstay | ⟨e, he, -, hbest, hlt⟩
  · exact absurd (by rw [hstay]) h
  · have hmem := (horder _).mem_iff.mp he
    rwa [← dot_single_of_mem (nodup_keys_commEdgeWeight comm row) hmem, dot_commEdgeWeight,
      ← hbest] at hlt

section

variable {s : Level ℚ} (h : s.Weighted) {comm : List ℕ} (hcomm : Assigns s.adj.length comm)
  (C : Computer ℚ) (m : ℚ) {u c : ℕ} (hu : u < s.adj.length)

/-- What node `u` gains by joining the community `c` alone. -/
def moveGain (s : Level ℚ) (γ m : ℚ) (comm : List ℕ) (u c : ℕ) : ℚ :=
  gain (range s.adj.length) (excess (range s.adj.length) (weight s.adj) γ m) (comm.getD · 0)
    (fun _ => c) u

theorem sweep_getD (level iter : ℕ) {adj : List (List (ℕ × ℚ))} (nodeWeight : List ℚ)
    (hu : u < adj.length) : (C.sweep m level iter adj nodeWeight comm).getD u 0 =
      bestComm C.resolution m (C.order.edges level iter u) comm
        (accumulateByComm adj.length comm nodeWeight) (adj.getD u []) (nodeWeight.getD u 0)
        (comm.getD u 0) := by
  simp [Computer.sweep, hu]

include h hcomm hu

theorem sum_excess_block (γ : ℚ) (hc : c < s.adj.length) :
    ∑ v ∈ range s.adj.length, (if comm.getD v 0 = c then
        excess (range s.adj.length) (weight s.adj) γ m u v else 0) =
      joinValue γ (s.nodeWeight.getD u 0 / (2 * m)) comm
        (accumulateByComm s.adj.length comm s.nodeWeight) (s.adj.getD u []) c := by
  have hlen : comm.length = s.nodeWeight.length := by
    rw [hcomm.length, h.nodeWeight_eq, length_map]
  rw [joinValue, dot_eq_sum (fun e he => h.closed.getD_lt u he), accumulateByComm_getD hc hlen,
    hcomm.length, sum_filter, mul_sum, ← sum_sub_distrib]
  refine sum_congr rfl fun v hv => ?_
  rw [excess, ← h.getD_nodeWeight hu, ← h.getD_nodeWeight (mem_range.mp hv)]
  simp only [single, weight]
  split_ifs <;> ring

/-- A community is worth more than staying exactly if joining it gains more than the self-loop of
the node weighs. -/
theorem stayValue_lt_joinValue_iff (γ : ℚ) (hc : c < s.adj.length) (hne : c ≠ comm.getD u 0) :
    stayValue γ (s.nodeWeight.getD u 0 / (2 * m)) (s.nodeWeight.getD u 0) comm
        (accumulateByComm s.adj.length comm s.nodeWeight) (s.adj.getD u []) (comm.getD u 0) <
      joinValue γ (s.nodeWeight.getD u 0 / (2 * m)) comm
        (accumulateByComm s.adj.length comm s.nodeWeight) (s.adj.getD u []) c ↔
      weight s.adj u u < moveGain s γ m comm u c := by
  have hself : γ * (s.nodeWeight.getD u 0 * s.nodeWeight.getD u 0) / (2 * m) =
      γ * (s.nodeWeight.getD u 0 / (2 * m)) * s.nodeWeight.getD u 0 := by ring
  rw [moveGain, gain_of_ne _ (mem_range.mpr hu) hne, sum_excess_block h hcomm m hu γ hc,
    sum_excess_block h hcomm m hu γ (hcomm.getD_lt hu), excess, ← h.getD_nodeWeight hu,
    stayValue, joinValue, joinValue]
  constructor <;> intro hlt <;> linarith

/-- A node that moves gains, taken alone, more than the weight of its self-loop. -/
theorem lt_gain_of_moved (level iter : ℕ)
    (hmoved : (C.sweep m level iter s.adj s.nodeWeight comm).getD u 0 ≠ comm.getD u 0) :
    weight s.adj u u < moveGain s C.resolution m comm u
      ((C.sweep m level iter s.adj s.nodeWeight comm).getD u 0) := by
  have hc := (C.sweep_assigns h.closed hcomm m level iter s.nodeWeight).getD_lt hu
  rw [← stayValue_lt_joinValue_iff h hcomm m hu _ hc hmoved]
  rw [sweep_getD C m level iter s.nodeWeight hu] at hmoved ⊢
  exact stayValue_lt_bestComm (C.order.edges_perm level iter u) hmoved

end

/-- The nodes that one sweep moves do not disturb each other: the interaction of their moves, with
the self-loops they were held back by, is no loss. -/
def Harmless (γ m : ℚ) (adj : List (List (ℕ × ℚ))) (comm newComm : List ℕ) : Prop :=
  0 ≤ interaction (range adj.length) (excess (range adj.length) (weight adj) γ m)
      (comm.getD · 0) (newComm.getD · 0) +
    2 * ∑ u ∈ range adj.length with newComm.getD u 0 ≠ comm.getD u 0, weight adj u u

instance (γ m : ℚ) (adj : List (List (ℕ × ℚ))) (comm newComm : List ℕ) :
    Decidable (Harmless γ m adj comm newComm) :=
  inferInstanceAs (Decidable (0 ≤ _))

section

variable {s : Level ℚ} (h : s.Weighted) {comm : List ℕ} {m : ℚ} (hm : 0 < m)

include h hm

/-- With a positive total weight modularity compares as the excess inside communities does. -/
theorem computeModularity_le_iff (γ : ℚ) {f g : List ℕ} (hf : f.length = s.adj.length)
    (hg : g.length = s.adj.length) : computeModularity γ m s.adj f ≤ computeModularity γ m s.adj g ↔
      within (range s.adj.length) (excess (range s.adj.length) (weight s.adj) γ m) (f.getD · 0) ≤
        within (range s.adj.length) (excess (range s.adj.length) (weight s.adj) γ m)
          (g.getD · 0) := by
  rw [computeModularity_eq h.closed hf, computeModularity_eq h.closed hg, if_neg hm.not_ge,
    if_neg hm.not_ge, modularity_eq_within fun _ hu => getD_lt_numComm hf hu,
    modularity_eq_within fun _ hu => getD_lt_numComm hg hu]
  exact div_le_div_iff_of_pos_right (by linarith)

theorem computeModularity_sweep (hcomm : Assigns s.adj.length comm) (C : Computer ℚ)
    (level iter : ℕ) (hless : Harmless C.resolution m s.adj comm
      (C.sweep m level iter s.adj s.nodeWeight comm)) :
    computeModularity C.resolution m s.adj comm ≤ computeModularity C.resolution m s.adj
        (C.sweep m level iter s.adj s.nodeWeight comm) := by
  have hnew := C.sweep_assigns h.closed hcomm m level iter s.nodeWeight
  have hsymm : ∀ u ∈ range s.adj.length, ∀ v ∈ range s.adj.length,
      excess (range s.adj.length) (weight s.adj) C.resolution m u v =
        excess (range s.adj.length) (weight s.adj) C.resolution m v u := by
    intro u _ v _
    rw [excess, excess, h.symm u v, mul_comm (degree _ _ u)]
  have hgain : ∑ u ∈ range s.adj.length with
      (C.sweep m level iter s.adj s.nodeWeight comm).getD u 0 ≠ comm.getD u 0,
        weight s.adj u u ≤ ∑ u ∈ range s.adj.length, gain (range s.adj.length)
          (excess (range s.adj.length) (weight s.adj) C.resolution m) (comm.getD · 0)
          ((C.sweep m level iter s.adj s.nodeWeight comm).getD · 0) u := by
    rw [sum_filter]
    refine sum_le_sum fun u hu => ?_
    split_ifs with hmoved
    · exact (lt_gain_of_moved h hcomm C m (mem_range.mp hu) level iter hmoved).le
    · refine le_of_eq (.symm (gain_of_eq _ ?_))
      exact not_not.mp hmoved
  rw [computeModularity_le_iff h hm _ hcomm.length hnew.length,
    within_move hsymm (comm.getD · 0) ((C.sweep m level iter s.adj s.nodeWeight comm).getD · 0)]
  rw [Harmless] at hless
  linarith

end

namespace Computer

/-- The sweeps of one call of `LocalMove`: the assignments before and after each of them. -/
def sweeps (C : Computer ℚ) (m : ℚ) (level : ℕ) (adj : List (List (ℕ × ℚ)))
    (nodeWeight : List ℚ) : ℕ → ℕ → List ℕ → List (List ℕ × List ℕ)
  | 0, _, _ => []
  | fuel + 1, iter, comm =>
    let newComm := C.sweep m level iter adj nodeWeight comm
    if movedCount comm newComm = 0 then [(comm, newComm)]
    else (comm, newComm) :: C.sweeps m level adj nodeWeight fuel (iter + 1) newComm

theorem computeModularity_moveLoop (C : Computer ℚ) {s : Level ℚ} (h : s.Weighted) {m : ℚ}
    (hm : 0 < m) (level fuel iter : ℕ) {comm : List ℕ} (anyMoved : Bool)
    (hcomm : Assigns s.adj.length comm)
    (hless : ∀ p ∈ C.sweeps m level s.adj s.nodeWeight fuel iter comm,
      Harmless C.resolution m s.adj p.1 p.2) : computeModularity C.resolution m s.adj comm ≤
      computeModularity C.resolution m s.adj
        (C.moveLoop m level s.adj s.nodeWeight fuel iter comm anyMoved).1 := by
  induction fuel generalizing iter comm anyMoved with
  | zero => exact le_rfl
  | succ fuel ih =>
    have hnew := C.sweep_assigns h.closed hcomm m level iter s.nodeWeight
    have hsweep := computeModularity_sweep h hm hcomm C level iter
    rw [sweeps] at hless
    rw [moveLoop]
    generalize C.sweep m level iter s.adj s.nodeWeight comm = newComm at hnew hsweep hless ⊢
    split_ifs at hless ⊢
    · exact hsweep (hless (comm, newComm) mem_cons_self)
    · have hfirst := hsweep (hless (comm, newComm) mem_cons_self)
      exact hfirst.trans (ih (iter + 1) true hnew fun p hp => hless p (mem_cons_of_mem _ hp))

end Computer

theorem computeModularity_renumber {adj : List (List (ℕ × ℚ))} (h : Closed adj) (γ m : ℚ)
    {comm : List ℕ} (hcomm : comm.length = adj.length) :
    computeModularity γ m adj (renumber comm).1 = computeModularity γ m adj comm := by
  have hids := renumbers comm
  have hlen := hids.length.trans hcomm
  rw [computeModularity_eq h hlen, computeModularity_eq h hcomm,
    modularity_congr (fun _ hu => getD_lt_numComm hlen hu) (fun _ hu => getD_lt_numComm hcomm hu)]
  intro u hu v hv
  have hu : u < comm.length := hcomm ▸ mem_range.mp hu
  have hv : v < comm.length := hcomm ▸ mem_range.mp hv
  have hcongr := hids.congr u v hu hv
  rw [getElem?_eq_getElem hu, getElem?_eq_getElem hv,
    getElem?_eq_getElem (hids.length ▸ hu), getElem?_eq_getElem (hids.length ▸ hv),
    Option.some.injEq, Option.some.injEq] at hcongr
  rwa [getD_eq_getElem _ _ hu, getD_eq_getElem _ _ hv,
    getD_eq_getElem _ _ (hids.length ▸ hu), getD_eq_getElem _ _ (hids.length ▸ hv)]

/-- Every assignment of the nodes of `s` has the modularity of the assignment of the vertices of
`G` that it is written back to. -/
def Lifts (γ m : ℚ) (G : Graph ℚ) (s : Level ℚ) : Prop :=
  ∀ f : List ℕ, f.length = s.adj.length →
    computeModularity γ m s.adj f =
      computeModularity γ m G.adj (mapBack G.adj.length { s with comm := f })

theorem lifts_initial (γ m : ℚ) (G : Graph ℚ) : Lifts γ m G (Level.initial G.adj) := by
  intro f hf
  have hback : mapBack G.adj.length { Level.initial G.adj with comm := f } = f := by
    refine ext_getElem? fun i => ?_
    by_cases hi : i < G.adj.length
    · have hif : i < f.length := hf.symm ▸ hi
      rw [getElem?_eq_getElem hif]
      refine getElem?_mapBack (partitions_singletons _) ⟨[i], ?_, by simp⟩
        (getElem?_eq_getElem hif)
      simp [Level.initial, hi]
    · rw [getElem?_eq_none (by rw [length_mapBack]; omega),
        getElem?_eq_none (hf.symm ▸ Nat.le_of_not_lt hi)]
  rw [hback]
  rfl

theorem lifts_next {γ m : ℚ} {G : Graph ℚ} {s : Level ℚ} (h : s.Weighted)
    (hvalid : s.Valid G.adj.length) (hlifts : Lifts γ m G s) {comm : List ℕ}
    (hcomm : comm.length = s.adj.length) {order : ℕ → List (ℕ × ℚ) → List (ℕ × ℚ)}
    (horder : ∀ c l, (order c l).Perm l) : Lifts γ m G (s.next order comm) := by
  intro f hf
  have hids := renumbers comm
  have hlen : ((renumber comm).1.map (f.getD · 0)).length = s.adj.length := by
    rw [length_map, hids.length, hcomm]
  have hnext : (s.next order comm).Valid G.adj.length := valid_coarsen hvalid hcomm horder
  rw [computeModularity_next h hcomm horder γ m hf, hlifts _ hlen]
  congr 1
  refine ext_getElem? fun i => ?_
  by_cases hi : i < G.adj.length
  · -- vertex `i` belongs to `u`, hence to the coarse node of the community of `u`
    obtain ⟨u, hu⟩ := hvalid.parts.cover hi
    have hulen : u < (renumber comm).1.length := by
      rw [hids.length, hcomm, ← hvalid.nodes]
      exact hu.lt_length
    have hc : (renumber comm).1[u] < (renumber comm).2 := hids.lt _ (getElem_mem hulen)
    have hown : Owns (s.next order comm).nodeToOrig (renumber comm).1[u] i :=
      (owns_newNodeToOrig hc).mpr ⟨u, getElem?_eq_getElem hulen, hu⟩
    have hfc : (renumber comm).1[u] < f.length := by rw [hf, length_next_adj]; exact hc
    have hfu : ((renumber comm).1.map (f.getD · 0))[u]? = some f[(renumber comm).1[u]] := by
      rw [getElem?_map, getElem?_eq_getElem hulen, Option.map_some,
        getD_eq_getElem _ _ hfc]
    rw [getElem?_mapBack (s := { s with comm := (renumber comm).1.map (f.getD · 0) })
        hvalid.parts hu hfu,
      getElem?_mapBack (s := { s.next order comm with comm := f }) hnext.parts hown
        (getElem?_eq_getElem hfc)]
  · rw [getElem?_eq_none (by rw [length_mapBack]; omega),
      getElem?_eq_none (by rw [length_mapBack]; omega)]

/-- From a level on, no state of the loop over the levels has less modularity than the one
before. -/
theorem Computer.levelLoop_modularity (C : Computer ℚ) {G : Graph ℚ} {m : ℚ} (hm : 0 < m)
    (fuel level : ℕ) {s : Level ℚ} (h : s.Weighted) (hvalid : s.Valid G.adj.length)
    (hlifts : Lifts C.resolution m G s) (hless : ∀ p ∈ (C.levelLoop m fuel level s).1.zipIdx level,
      ∀ q ∈ C.sweeps m p.2 p.1.adj p.1.nodeWeight C.maxIterations.toNat 0 p.1.comm,
        Harmless C.resolution m p.1.adj q.1 q.2) : computeModularity C.resolution m s.adj s.comm ≤
      computeModularity C.resolution m G.adj
        (mapBack G.adj.length (C.levelLoop m fuel level s).2.1) := by
  induction fuel generalizing level s with
  | zero => exact (hlifts s.comm hvalid.assigns.length).le
  | succ fuel ih =>
    have hassigns := C.localMove_assigns hvalid.closed hvalid.assigns m level
    have hmove := C.computeModularity_moveLoop h hm level C.maxIterations.toNat 0 false
      hvalid.assigns
    have hlocal : C.moveLoop m level s.adj s.nodeWeight C.maxIterations.toNat 0 s.comm false =
      C.localMove m level s := rfl
    rw [hlocal] at hmove
    rw [levelLoop] at hless ⊢
    generalize C.localMove m level s = r at hassigns hmove hless ⊢
    obtain ⟨comm, improved⟩ := r
    dsimp only at hassigns hmove hless ⊢
    have hren := computeModularity_renumber h.closed C.resolution m hassigns.length
    split_ifs at hless ⊢
    · have hgain := hmove (hless (s, level) (by simp))
      exact hgain.trans (hlifts comm hassigns.length).le
    · have hgain := hmove (hless (s, level) (by simp))
      have hlen : (renumber comm).1.length = s.adj.length :=
        (renumbers comm).length.trans hassigns.length
      rw [← hren] at hgain
      exact hgain.trans (hlifts _ hlen).le
    · have hgain := hmove (hless (s, level) (by simp))
      have hperm := C.order.coarse_perm level
      have hnext : (s.next (C.order.coarse level) comm).Valid G.adj.length :=
        valid_coarsen hvalid hassigns.length hperm
      have hrest := ih (level + 1) (weighted_next h hassigns.length hperm) hnext
        (lifts_next h hvalid hlifts hassigns.length hperm) fun p hp =>
          hless p (by rw [zipIdx_cons]; exact mem_cons_of_mem _ hp)
      have hstart : computeModularity C.resolution m
          (s.next (C.order.coarse level) comm).adj (s.next (C.order.coarse level) comm).comm =
            computeModularity C.resolution m s.adj comm := by
        rw [computeModularity_next h hassigns.length hperm _ _ hnext.assigns.length, ← hren]
        congr 1
        refine ext_getElem (by simp) fun u hu hu' => ?_
        have hlt : (renumber comm).1[u] < (renumber comm).2 :=
          (renumbers comm).lt _ (getElem_mem hu')
        simp [Level.next, coarsen, hlt]
      rw [hstart] at hrest
      exact hgain.trans hrest

def Computer.Undisturbed (C : Computer ℚ) (G : Graph ℚ) : Prop :=
  ∀ p ∈ (C.run G).1.zipIdx,
    ∀ q ∈ C.sweeps (totalWeight G.adj) p.2 p.1.adj p.1.nodeWeight C.maxIterations.toNat 0 p.1.comm,
      Harmless C.resolution (totalWeight G.adj) p.1.adj q.1 q.2

instance (C : Computer ℚ) (G : Graph ℚ) : Decidable (C.Undisturbed G) :=
  inferInstanceAs (Decidable (∀ p ∈ _, ∀ q ∈ _, Harmless _ _ _ _ _))

def insertionOrder : MapOrder ℚ where
  edges _ _ _ l := l
  edges_perm _ _ _ l := List.Perm.refl l
  coarse _ _ l := l
  coarse_perm _ _ l := List.Perm.refl l

def anchored : Graph ℚ where
  adj := [[(0, 10), (1, 1)], [(0, 1)]]
  inRange := by decide

end Neug.Louvain
