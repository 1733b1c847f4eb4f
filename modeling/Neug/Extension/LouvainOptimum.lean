import Neug.Extension.LouvainGain

/-! Assignments that a sweep of `LocalMove` leaves alone. The value of staying counts the self-loop
of the node, the value of moving does not, so a sweep keeps every node whose single moves gain no
more than its self-loop weighs. -/
namespace Neug.Louvain

open Neug.Lib.Modularity Finset
open List hiding mem_range mem_singleton mem_singleton_self range

theorem delta_le_considered (γ k : ℚ) (commTotal : List ℚ) (old : ℕ) (l : List (ℕ × ℚ))
    (best : ℚ × ℕ) : best.1 ≤ (l.foldl (consider γ k commTotal old) best).1 ∧
      ∀ e ∈ l, e.1 ≠ old →
        e.2 - γ * k * commTotal.getD e.1 0 ≤ (l.foldl (consider γ k commTotal old) best).1 := by
  induction l generalizing best with
  | nil => exact ⟨le_rfl, fun e he => by cases he⟩
  | cons f l ih =>
    obtain ⟨hmono, hrest⟩ := ih (consider γ k commTotal old best f)
    have hstep : best.1 ≤ (consider γ k commTotal old best f).1 ∧
        (f.1 ≠ old → f.2 - γ * k * commTotal.getD f.1 0 ≤
          (consider γ k commTotal old best f).1) := by
      simp only [consider]
      split_ifs with hold hlt
      · exact ⟨le_rfl, fun hne => absurd hold hne⟩
      · exact ⟨hlt.le, fun _ => le_rfl⟩
      · exact ⟨le_rfl, fun _ => not_lt.mp hlt⟩
    refine ⟨hstep.1.trans hmono, fun e he hne => ?_⟩
    rcases mem_cons.mp he with rfl | he
    · exact (hstep.2 hne).trans hmono
    · exact hrest e he hne

theorem mem_keys_commEdgeWeight (comm : List ℕ) {row : List (ℕ × ℚ)} {e : ℕ × ℚ} (he : e ∈ row) :
    comm.getD e.1 0 ∈ (commEdgeWeight comm row).map Prod.fst := by
  unfold commEdgeWeight
  induction row using reverseRecOn with
  | nil => cases he
  | append_singleton row f ih =>
    rw [foldl_append, foldl_cons, foldl_nil, keys_bump]
    rcases mem_append.mp he with he | he
    · split_ifs
      · exact ih he
      · exact mem_append_left _ (ih he)
    · obtain rfl := mem_singleton.mp he
      split_ifs with hmem
      · exact hmem
      · exact mem_append_right _ (mem_singleton_self _)

/-- A node stays exactly if no neighbouring community is worth more than staying. -/
theorem bestComm_eq_old_iff {γ m : ℚ} {order : List (ℕ × ℚ) → List (ℕ × ℚ)}
    (horder : ∀ l, (order l).Perm l) (comm : List ℕ) (commTotal : List ℚ)
    (row : List (ℕ × ℚ)) (ki : ℚ) (old : ℕ) : bestComm γ m order comm commTotal row ki old = old ↔
      ∀ e ∈ row, comm.getD e.1 0 ≠ old →
        joinValue γ (ki / (2 * m)) comm commTotal row (comm.getD e.1 0) ≤
          stayValue γ (ki / (2 * m)) ki comm commTotal row old := by
  have hnodup := nodup_keys_commEdgeWeight comm row
  constructor
  · intro hold e he hne
    obtain ⟨f, hf, hkey⟩ := mem_map.mp (mem_keys_commEdgeWeight comm he)
    rw [joinValue, ← hkey, ← dot_commEdgeWeight, dot_single_of_mem hnodup hf]
    rw [bestComm_eq] at hold
    have hdelta := (delta_le_considered γ (ki / (2 * m)) commTotal old
      (order (commEdgeWeight comm row))
      (stayValue γ (ki / (2 * m)) ki comm commTotal row old, old)).2 f ((horder _).mem_iff.mpr hf) (hkey ▸ hne)
    rcases considered_better γ (ki / (2 * m)) commTotal old (order (commEdgeWeight comm row)) _
      (stayValue γ (ki / (2 * m)) ki comm commTotal row old, old) le_rfl with h | ⟨g, -, hg, h, -⟩
    · rwa [h] at hdelta
    · exact absurd (h.symm.trans hold) hg
  · intro hstay
    by_contra hne
    have hlt := stayValue_lt_bestComm horder hne
    rcases bestComm_mem γ m horder comm commTotal row ki old with h | ⟨e, he, h⟩
    · exact hne h
    · rw [h] at hlt hne
      exact hlt.not_ge (hstay e he hne)

/-- Node `u` has a neighbour in the community `c`. -/
def Adjacent (adj : List (List (ℕ × ℚ))) (comm : List ℕ) (u c : ℕ) : Prop :=
  ∃ e ∈ adj.getD u [], comm.getD e.1 0 = c

/-- What the modularity of the graph changes by when node `u` alone joins the community `c`. -/
def moveChange (γ : ℚ) (adj : List (List (ℕ × ℚ))) (comm : List ℕ) (u c : ℕ) : ℚ :=
  computeModularity γ (totalWeight adj) adj (comm.set u c) -
    computeModularity γ (totalWeight adj) adj comm

def LocallyOptimal (γ : ℚ) (adj : List (List (ℕ × ℚ))) (comm : List ℕ) : Prop :=
  ∀ u < adj.length, ∀ c, Adjacent adj comm u c → moveChange γ adj comm u c ≤ 0

/-- If some single move raises modularity, then one does so by more than the share that the
self-loop of its node has in the weight of the graph. -/
def OutweighsLoops (γ : ℚ) (adj : List (List (ℕ × ℚ))) (comm : List ℕ) : Prop :=
  (∃ u < adj.length, ∃ c, Adjacent adj comm u c ∧ 0 < moveChange γ adj comm u c) →
    ∃ u < adj.length, ∃ c, Adjacent adj comm u c ∧ c ≠ comm.getD u 0 ∧
      weight adj u u / totalWeight adj < moveChange γ adj comm u c

section

variable {s : Level ℚ} (h : s.Weighted) {comm : List ℕ}

include h

theorem moveChange_eq (γ : ℚ) (hcomm : Assigns s.adj.length comm) (hm : 0 < totalWeight s.adj)
    {u c : ℕ} (hu : u < s.adj.length) : moveChange γ s.adj comm u c =
      moveGain s γ (totalWeight s.adj) comm u c / totalWeight s.adj := by
  have hset : (comm.set u c).length = s.adj.length := by rw [length_set, hcomm.length]
  have hsymm : ∀ v ∈ range s.adj.length, ∀ w ∈ range s.adj.length,
      excess (range s.adj.length) (weight s.adj) γ (totalWeight s.adj) v w =
        excess (range s.adj.length) (weight s.adj) γ (totalWeight s.adj) w v := by
    intro v _ w _
    rw [excess, excess, h.symm v w, mul_comm (degree _ _ v)]
  have hself : (comm.set u c).getD u 0 = c := by
    rw [getD_eq_getElem _ _ (by rw [hset]; exact hu), getElem_set_self]
  have hother : ∀ v ∈ range s.adj.length, v ≠ u → (comm.set u c).getD v 0 = comm.getD v 0 := by
    intro v _ hne
    rw [getD_eq_getElem?_getD, getElem?_set_ne (Ne.symm hne), getD_eq_getElem?_getD]
  have hgain : gain (range s.adj.length) (excess (range s.adj.length) (weight s.adj) γ
      (totalWeight s.adj)) (comm.getD · 0) ((comm.set u c).getD · 0) u =
        moveGain s γ (totalWeight s.adj) comm u c := by
    simp only [moveGain, gain, hself]
  rw [moveChange, computeModularity_eq h.closed hset, computeModularity_eq h.closed hcomm.length,
    if_neg hm.not_ge, if_neg hm.not_ge, modularity_eq_within fun _ hv => getD_lt_numComm hset hv,
    modularity_eq_within fun _ hv => getD_lt_numComm hcomm.length hv,
    within_move_single hsymm (mem_range.mpr hu) hother, hgain]
  field_simp
  ring

/-- A sweep keeps a node exactly if its single moves gain no more than its self-loop weighs. -/
theorem sweep_getD_eq_iff (hcomm : Assigns s.adj.length comm) (C : Computer ℚ) (m : ℚ)
    (level iter : ℕ) {u : ℕ} (hu : u < s.adj.length) :
    (C.sweep m level iter s.adj s.nodeWeight comm).getD u 0 = comm.getD u 0 ↔
      ∀ c, Adjacent s.adj comm u c → c ≠ comm.getD u 0 →
        moveGain s C.resolution m comm u c ≤ weight s.adj u u := by
  rw [sweep_getD C m level iter s.nodeWeight hu,
    bestComm_eq_old_iff (C.order.edges_perm level iter u)]
  constructor
  · rintro hstay c ⟨e, he, rfl⟩ hne
    have hc := hcomm.getD_lt (h.closed.getD_lt u he)
    have hle := hstay e he hne
    rwa [← not_lt, stayValue_lt_joinValue_iff h hcomm m hu _ hc hne, not_lt] at hle
  · intro hgain e he hne
    have hc := hcomm.getD_lt (h.closed.getD_lt u he)
    rw [← not_lt, stayValue_lt_joinValue_iff h hcomm m hu _ hc hne, not_lt]
    exact hgain _ ⟨e, he, rfl⟩ hne

theorem sweep_eq_iff (hcomm : Assigns s.adj.length comm) (hm : 0 < totalWeight s.adj)
    (C : Computer ℚ) (level iter : ℕ) :
    C.sweep (totalWeight s.adj) level iter s.adj s.nodeWeight comm = comm ↔
      ∀ u < s.adj.length, ∀ c, Adjacent s.adj comm u c → c ≠ comm.getD u 0 →
        moveChange C.resolution s.adj comm u c ≤ weight s.adj u u / totalWeight s.adj := by
  have hnew := C.sweep_assigns h.closed hcomm (totalWeight s.adj) level iter s.nodeWeight
  have hnode : ∀ u < s.adj.length,
      ((C.sweep (totalWeight s.adj) level iter s.adj s.nodeWeight comm).getD u 0 = comm.getD u 0 ↔
        ∀ c, Adjacent s.adj comm u c → c ≠ comm.getD u 0 →
          moveChange C.resolution s.adj comm u c ≤ weight s.adj u u / totalWeight s.adj) := by
    intro u hu
    rw [sweep_getD_eq_iff h hcomm C _ level iter hu]
    simp [moveChange_eq h _ hcomm hm hu, div_le_div_iff_of_pos_right hm]
  constructor
  · intro heq u hu
    exact (hnode u hu).mp (by rw [heq])
  · intro hall
    refine ext_getElem (hnew.length.trans hcomm.length.symm) fun u hu hu' => ?_
    have heq := (hnode u (hnew.length ▸ hu)).mpr (hall u (hnew.length ▸ hu))
    rwa [getD_eq_getElem _ _ hu, getD_eq_getElem _ _ hu'] at heq

/-- A sweep that changes no node certifies a local optimum unless the self-loops cover what the
single moves would gain; without self-loops of positive weight it always does. -/
theorem locallyOptimal_of_sweep_iff (hcomm : Assigns s.adj.length comm) (C : Computer ℚ)
    (level iter : ℕ) :
    ((C.sweep (totalWeight s.adj) level iter s.adj s.nodeWeight comm = comm →
        LocallyOptimal C.resolution s.adj comm) ↔ OutweighsLoops C.resolution s.adj comm) ∧
      ((∀ u < s.adj.length, weight s.adj u u ≤ 0) →
        C.sweep (totalWeight s.adj) level iter s.adj s.nodeWeight comm = comm →
          LocallyOptimal C.resolution s.adj comm) := by
  rcases le_or_gt (totalWeight s.adj) 0 with hm | hm
  · have hzero : ∀ u c, moveChange C.resolution s.adj comm u c = 0 := by
      simp [moveChange, computeModularity, hm]
    have hopt : LocallyOptimal C.resolution s.adj comm := fun u _ c _ => (hzero u c).le
    refine ⟨⟨fun _ hraise => ?_, fun _ _ => hopt⟩, fun _ _ => hopt⟩
    obtain ⟨u, -, c, -, hpos⟩ := hraise
    exact absurd (hzero u c) hpos.ne'
  · have hown : ∀ u, moveChange C.resolution s.adj comm u (comm.getD u 0) = 0 := by
      intro u
      have hset : comm.set u (comm.getD u 0) = comm := by
        by_cases hu : u < comm.length
        · rw [getD_eq_getElem _ _ hu, set_getElem_self]
        · exact set_eq_of_length_le (by omega)
      rw [moveChange, hset, sub_self]
    rw [sweep_eq_iff h hcomm hm]
    refine ⟨⟨fun hopt hraise => ?_, fun hloops hstill u hu c hadj => ?_⟩,
      fun hnone hstill u hu c hadj => ?_⟩
    · obtain ⟨u, hu, c, hadj, hpos⟩ := hraise
      by_contra! hcovered
      exact absurd (hopt hcovered u hu c hadj) hpos.not_ge
    · by_contra hpos
      obtain ⟨v, hv, d, hadj', hne, hlt⟩ := hloops ⟨u, hu, c, hadj, not_le.mp hpos⟩
      exact absurd (hstill v hv d hadj' hne) hlt.not_ge
    · by_cases hc : c = comm.getD u 0
      · exact (hc ▸ hown u).le
      · exact (hstill u hu c hadj hc).trans (div_nonpos_of_nonpos_of_nonneg (hnone u hu) hm.le)

end

def chain : Graph ℚ where
  adj := [[(1, 1)], [(0, 1), (2, 1)], [(1, 1), (3, 1)], [(2, 1)]]
  inRange := by decide

/-- Halved in the middle: no node has a self-loop and none wants to move. -/
theorem locallyOptimal_of_sweep_chain :
    ∃ C : Computer ℚ, C.sweep (totalWeight chain.adj) 0 0 chain.adj
        (Level.initial chain.adj).nodeWeight [0, 0, 2, 2] = [0, 0, 2, 2] ∧
      LocallyOptimal C.resolution chain.adj [0, 0, 2, 2] := by
  have hsymm : Symmetric chain.adj := symmetric_of_lt chain.inRange (by decide +kernel)
  have hassigns : Assigns (Level.initial chain.adj).adj.length [0, 0, 2, 2] :=
    ⟨rfl, by decide +kernel⟩
  have hstill : (⟨1, 10, 10, insertionOrder⟩ : Computer ℚ).sweep (totalWeight chain.adj) 0 0
      chain.adj (Level.initial chain.adj).nodeWeight [0, 0, 2, 2] = [0, 0, 2, 2] := by
    decide +kernel
  have hloops : ∀ u < (Level.initial chain.adj).adj.length,
      weight (Level.initial chain.adj).adj u u ≤ 0 := by decide +kernel
  exact ⟨⟨1, 10, 10, insertionOrder⟩, hstill,
    (locallyOptimal_of_sweep_iff (weighted_initial hsymm) hassigns
      ⟨1, 10, 10, insertionOrder⟩ 0 0).2 hloops hstill⟩

def loopedPair : Graph ℚ where
  adj := [[(0, 1), (0, 1), (1, 1), (1, 1), (1, 1)], [(0, 1), (0, 1), (0, 1), (1, 1), (1, 1)]]
  inRange := by decide

/-- Joining either node to the other raises modularity, but both stay. -/
theorem sweep_keeps_loopedPair : ∃ C : Computer ℚ, Symmetric loopedPair.adj ∧
      C.sweep (totalWeight loopedPair.adj) 0 0 loopedPair.adj
        (Level.initial loopedPair.adj).nodeWeight [0, 1] = [0, 1] ∧
      Adjacent loopedPair.adj [0, 1] 0 1 ∧
      moveChange C.resolution loopedPair.adj [0, 1] 0 1 = 1 / 10 ∧
      ¬ LocallyOptimal C.resolution loopedPair.adj [0, 1] := by
  have hadj : Adjacent loopedPair.adj [0, 1] 0 1 := ⟨(1, 1), by decide +kernel, rfl⟩
  have hraise : moveChange 1 loopedPair.adj [0, 1] 0 1 = 1 / 10 := by decide +kernel
  refine ⟨⟨1, 10, 10, insertionOrder⟩, symmetric_of_lt loopedPair.inRange (by decide +kernel),
    by decide +kernel, hadj, hraise, fun hopt => ?_⟩
  have hle := hopt 0 (by decide) 1 hadj
  rw [hraise] at hle
  exact absurd hle (by norm_num)

end Neug.Louvain
