import Neug.Extension.Louvain
import Neug.Lib.Scatter

/-! The communities `Compute` returns are a partition of the original vertices: two vertices share
an id exactly when some level put them into one node or the last level into one community. -/
namespace Neug.Louvain

open Neug.Lib List Option

/-- The renumbering loop assigns to every community its place in one duplicate-free list of keys
that extends the keys it started from. -/
theorem renumberFrom_keys (remap comm : List ℕ) (h : remap.Nodup) :
    ∃ keys, remap <+: keys ∧ keys.Nodup ∧ (∀ c ∈ comm, c ∈ keys) ∧
      (∀ c ∈ keys, c ∈ remap ∨ c ∈ comm) ∧
      renumberFrom remap comm = (comm.map (keys.idxOf ·), keys.length) := by
  induction comm generalizing remap with
  | nil => exact ⟨remap, prefix_refl _, h, by simp, by simp, rfl⟩
  | cons c comm ih =>
    let remap' := if c ∈ remap then remap else remap ++ [c]
    have hpre : remap <+: remap' := by
      by_cases hc : c ∈ remap <;> simp [remap', hc]
    have hc : c ∈ remap' := by
      by_cases hc : c ∈ remap <;> simp [remap', hc]
    have hnodup : remap'.Nodup := by
      by_cases hc : c ∈ remap
      · simpa [remap', hc] using h
      · have := nodup_append.mpr ⟨h, nodup_singleton c, by
          rintro a ha b hb rfl
          exact hc (mem_singleton.mp hb ▸ ha)⟩
        simpa [remap', hc] using this
    have hback : ∀ d ∈ remap', d ∈ remap ∨ d = c := by
      intro d hd
      by_cases hc : c ∈ remap
      · exact .inl (by simpa [remap', hc] using hd)
      · simpa [remap', hc] using hd
    obtain ⟨keys, hkeys, hkn, hall, hfrom, hrun⟩ := ih remap' hnodup
    have hck : c ∈ keys := hkeys.subset hc
    refine ⟨keys, hpre.trans hkeys, hkn, ?_, ?_, ?_⟩
    · intro d hd
      rcases mem_cons.mp hd with rfl | hd
      · exact hck
      · exact hall d hd
    · intro d hd
      rcases hfrom d hd with hd | hd
      · rcases hback d hd with hd | rfl
        · exact .inl hd
        · exact .inr mem_cons_self
      · exact .inr (mem_cons_of_mem _ hd)
    · obtain ⟨t, ht⟩ := hkeys
      have hidx : remap'.idxOf c = keys.idxOf c := by
        rw [← ht, idxOf_append_of_mem hc]
      change (remap'.idxOf c :: (renumberFrom remap' comm).1, (renumberFrom remap' comm).2) = _
      rw [hrun, hidx, map_cons]

/-- What the renumbering gives: ids below `num_comms`, every one of them used, equal exactly for
equal communities. -/
structure Renumbers (comm ids : List ℕ) (num : ℕ) : Prop where
  length : ids.length = comm.length
  lt : ∀ c ∈ ids, c < num
  onto : ∀ c < num, c ∈ ids
  congr : ∀ i j : ℕ, i < comm.length → j < comm.length →
    (ids[i]? = ids[j]? ↔ comm[i]? = comm[j]?)

theorem renumbers (comm : List ℕ) : Renumbers comm (renumber comm).1 (renumber comm).2 := by
  obtain ⟨keys, -, hnodup, hall, hfrom, hrun⟩ := renumberFrom_keys [] comm nodup_nil
  rw [renumber, hrun]
  refine ⟨length_map _, ?_, ?_, ?_⟩
  · intro c hc
    obtain ⟨d, hd, rfl⟩ := mem_map.mp hc
    exact idxOf_lt_length_of_mem (hall d hd)
  · intro c hc
    have hmem : keys[c] ∈ comm := (hfrom _ (getElem_mem hc)).resolve_left not_mem_nil
    exact mem_map.mpr ⟨keys[c], hmem, hnodup.idxOf_getElem c hc⟩
  · intro i j hi hj
    simp only [getElem?_map, getElem?_eq_getElem hi, getElem?_eq_getElem hj, map_some, some.injEq]
    exact idxOf_inj (hall _ (getElem_mem hi))

theorem renumberFrom_of_nodup {remap comm : List ℕ} (h : (remap ++ comm).Nodup) :
    (renumberFrom remap comm).1 = range' remap.length comm.length := by
  induction comm generalizing remap with
  | nil => rfl
  | cons c comm ih =>
    have hc : c ∉ remap := fun hc => (nodup_append.mp h).2.2 c hc c mem_cons_self rfl
    have hsplit : ((remap ++ [c]) ++ comm).Nodup := by simpa using h
    have hrest := ih hsplit
    rw [renumberFrom]
    simp only [hc, ↓reduceIte, hrest]
    rw [length_cons, range'_succ, idxOf_append_of_notMem hc]
    simp

theorem renumber_of_num_eq {comm : List ℕ} (h : (renumber comm).2 = comm.length) :
    (renumber comm).1 = range comm.length := by
  obtain ⟨keys, -, hnodup, -, hfrom, hrun⟩ := renumberFrom_keys [] comm nodup_nil
  have hlen : keys.length = comm.length := by rw [← h, renumber, hrun]
  have hsub : keys ⊆ comm := fun c hc => (hfrom c hc).resolve_left not_mem_nil
  have hperm := (subperm_of_subset hnodup hsub).perm_of_length_le hlen.ge
  have hcomm : ([] ++ comm).Nodup := hperm.nodup_iff.mp hnodup
  rw [renumber, renumberFrom_of_nodup hcomm, range_eq_range']
  rfl

variable {R : Type}

section

/-- Vertex `i` is one of the original vertices that node `c` represents. -/
def Owns (nodeToOrig : List (List ℕ)) (c i : ℕ) : Prop :=
  ∃ l, nodeToOrig[c]? = some l ∧ i ∈ l

/-- `node_to_orig` splits the vertices below `N` among the nodes, none of which is empty. -/
structure Partitions (N : ℕ) (nodeToOrig : List (List ℕ)) : Prop where
  lt : ∀ {c i}, Owns nodeToOrig c i → i < N
  cover : ∀ {i}, i < N → ∃ c, Owns nodeToOrig c i
  unique : ∀ {c d i}, Owns nodeToOrig c i → Owns nodeToOrig d i → c = d
  occupied : ∀ {c}, c < nodeToOrig.length → ∃ i, Owns nodeToOrig c i

variable {nodeToOrig : List (List ℕ)}

theorem Owns.lt_length {c i : ℕ} (h : Owns nodeToOrig c i) : c < nodeToOrig.length := by
  obtain ⟨l, hl, -⟩ := h
  exact (List.getElem?_eq_some_iff.mp hl).1

theorem partitions_singletons (n : ℕ) : Partitions n ((range n).map fun i => [i]) := by
  have howns : ∀ c i, Owns ((range n).map fun i => [i]) c i ↔ c < n ∧ i = c := by
    intro c i
    constructor
    · rintro ⟨l, hl, hi⟩
      have hc : c < n := by simpa using (List.getElem?_eq_some_iff.mp hl).1
      rw [getElem?_map, getElem?_range hc, map_some, some.injEq] at hl
      subst hl
      exact ⟨hc, mem_singleton.mp hi⟩
    · rintro ⟨hc, rfl⟩
      exact ⟨[i], by simp [hc], by simp⟩
  refine ⟨?_, ?_, ?_, ?_⟩
  · intro c i h
    obtain ⟨hc, rfl⟩ := (howns c i).mp h
    exact hc
  · intro i hi
    exact ⟨i, (howns i i).mpr ⟨hi, rfl⟩⟩
  · intro c d i hc hd
    exact ((howns c i).mp hc).2.symm.trans ((howns d i).mp hd).2
  · intro c hc
    exact ⟨c, (howns c c).mpr ⟨by simpa using hc, rfl⟩⟩

theorem length_newNodeToOrig (num : ℕ) (comm : List ℕ) (nodeToOrig : List (List ℕ)) :
    (newNodeToOrig num comm nodeToOrig).length = num := by
  rw [newNodeToOrig, length_foldl_modify (fun (l : List ℕ) out => out ++ l), length_replicate]

theorem owns_newNodeToOrig {num : ℕ} {comm : List ℕ} {c i : ℕ} (hc : c < num) :
    Owns (newNodeToOrig num comm nodeToOrig) c i ↔
      ∃ u, comm[u]? = some c ∧ Owns nodeToOrig u i := by
  have hcell : (newNodeToOrig num comm nodeToOrig)[c]? =
      some (((comm.zip nodeToOrig).filter (·.1 = c)).flatMap (·.2)) := by
    rw [newNodeToOrig, getElem?_foldl_modify (fun (l : List ℕ) out => out ++ l),
      getElem?_replicate_of_lt hc, map_some, foldl_append_eq_append]
    simp [flatMap_def]
  constructor
  · rintro ⟨l, hl, hi⟩
    rw [hcell, some.injEq] at hl
    subst hl
    obtain ⟨e, he, hi⟩ := mem_flatMap.mp hi
    obtain ⟨he, hec⟩ := mem_filter.mp he
    obtain ⟨u, hu⟩ := mem_iff_getElem?.mp he
    obtain ⟨hcu, hou⟩ := getElem?_zip_eq_some.mp hu
    exact ⟨u, by simpa using (by simpa using hec) ▸ hcu, e.2, hou, hi⟩
  · rintro ⟨u, hcu, l, hl, hi⟩
    refine ⟨_, hcell, mem_flatMap.mpr ⟨(c, l), ?_, hi⟩⟩
    exact mem_filter.mpr ⟨mem_iff_getElem?.mpr ⟨u, getElem?_zip_eq_some.mpr ⟨hcu, hl⟩⟩, by simp⟩

theorem partitions_newNodeToOrig {N num : ℕ} {comm ids : List ℕ}
    (hids : Renumbers comm ids num) (hlen : comm.length = nodeToOrig.length)
    (h : Partitions N nodeToOrig) : Partitions N (newNodeToOrig num ids nodeToOrig) := by
  have hnum : ∀ {c i}, Owns (newNodeToOrig num ids nodeToOrig) c i → c < num := fun hc => by
    simpa [length_newNodeToOrig] using hc.lt_length
  refine ⟨?_, ?_, ?_, ?_⟩
  · intro c i hc
    obtain ⟨u, -, hu⟩ := (owns_newNodeToOrig (hnum hc)).mp hc
    exact h.lt hu
  · intro i hi
    obtain ⟨u, hu⟩ := h.cover hi
    have hlt : u < ids.length := by rw [hids.length, hlen]; exact hu.lt_length
    exact ⟨ids[u], (owns_newNodeToOrig (hids.lt _ (getElem_mem hlt))).mpr
      ⟨u, getElem?_eq_getElem hlt, hu⟩⟩
  · intro c d i hc hd
    obtain ⟨u, hcu, hu⟩ := (owns_newNodeToOrig (hnum hc)).mp hc
    obtain ⟨v, hdv, hv⟩ := (owns_newNodeToOrig (hnum hd)).mp hd
    obtain rfl := h.unique hu hv
    exact some.inj (hcu.symm.trans hdv)
  · intro c hc
    rw [length_newNodeToOrig] at hc
    obtain ⟨u, hu⟩ := mem_iff_getElem?.mp (hids.onto c hc)
    have hlt : u < nodeToOrig.length := by
      rw [← hlen, ← hids.length]
      exact (List.getElem?_eq_some_iff.mp hu).1
    obtain ⟨i, hi⟩ := h.occupied hlt
    exact ⟨i, (owns_newNodeToOrig hc).mpr ⟨u, hu, hi⟩⟩

theorem mapBack_eq (N : ℕ) (s : Level R) : mapBack N s = ((s.comm.zip s.nodeToOrig).flatMap
      fun e => e.2.map fun orig => (orig, e.1)).foldl (fun out e => out.set e.1 e.2)
        (replicate N 0) := by
  rw [mapBack, foldl_flatMap]
  simp [foldl_map]

theorem length_mapBack (N : ℕ) (s : Level R) : (mapBack N s).length = N := by
  rw [mapBack_eq, length_foldl_set, length_replicate]

theorem getElem?_mapBack {N : ℕ} {s : Level R} (h : Partitions N s.nodeToOrig) {c i v : ℕ}
    (hc : Owns s.nodeToOrig c i) (hv : s.comm[c]? = some v) : (mapBack N s)[i]? = some v := by
  rw [mapBack_eq]
  refine getElem?_foldl_set ?_ ?_ _ (by simpa using h.lt hc)
  · obtain ⟨l, hl, hi⟩ := hc
    refine ⟨(i, v), mem_flatMap.mpr ⟨(v, l), ?_, mem_map.mpr ⟨i, hi, rfl⟩⟩, rfl⟩
    exact mem_iff_getElem?.mpr ⟨c, getElem?_zip_eq_some.mpr ⟨hv, hl⟩⟩
  · intro e he hei
    obtain ⟨f, hf, he⟩ := mem_flatMap.mp he
    obtain ⟨orig, horig, rfl⟩ := mem_map.mp he
    obtain ⟨d, hd⟩ := mem_iff_getElem?.mp hf
    obtain ⟨hcd, hod⟩ := getElem?_zip_eq_some.mp hd
    obtain rfl := h.unique hc ⟨f.2, hod, hei ▸ horig⟩
    exact some.inj (hcd.symm.trans hv)

end

def Closed (adj : List (List (ℕ × R))) : Prop :=
  ∀ row ∈ adj, ∀ e ∈ row, e.1 < adj.length

/-- An assignment of `n` nodes to communities below `n`. -/
structure Assigns (n : ℕ) (comm : List ℕ) : Prop where
  length : comm.length = n
  lt : ∀ c ∈ comm, c < n

theorem assigns_range (n : ℕ) : Assigns n (range n) :=
  ⟨length_range, fun _ hc => mem_range.mp hc⟩

theorem Assigns.getD_lt {n : ℕ} {comm : List ℕ} (h : Assigns n comm) {u : ℕ} (hu : u < n) :
    comm.getD u 0 < n := by
  have hu' : u < comm.length := h.length ▸ hu
  rw [getD_eq_getElem _ _ hu']
  exact h.lt _ (getElem_mem hu')

/-- The state in which a level starts: every node is its own community and owns its share of the
`N` original vertices. -/
structure Level.Valid (N : ℕ) (s : Level R) : Prop where
  closed : Closed s.adj
  comm_eq : s.comm = List.range s.adj.length
  nodes : s.nodeToOrig.length = s.adj.length
  parts : Partitions N s.nodeToOrig

theorem Level.Valid.assigns {N : ℕ} {s : Level R} (h : s.Valid N) :
    Assigns s.adj.length s.comm := by
  rw [h.comm_eq]
  exact assigns_range _

theorem key_of_mem_bump [Zero R] [Add R] {c : ℕ} {w : R} {m : List (ℕ × R)} {e : ℕ × R} (h : e ∈ bump c w m) :
    e.1 = c ∨ ∃ f ∈ m, e.1 = f.1 := by
  induction m with
  | nil => exact .inl (by simp only [bump, mem_singleton] at h; rw [h])
  | cons f m ih =>
    rw [bump] at h
    split_ifs at h with hf
    · rcases mem_cons.mp h with rfl | h
      · exact .inl rfl
      · exact .inr ⟨e, mem_cons_of_mem _ h, rfl⟩
    · rcases mem_cons.mp h with rfl | h
      · exact .inr ⟨e, mem_cons_self, rfl⟩
      · rcases ih h with h | ⟨g, hg, h⟩
        · exact .inl h
        · exact .inr ⟨g, mem_cons_of_mem _ hg, h⟩

theorem keys_bump [Zero R] [Add R] (c : ℕ) (w : R) (m : List (ℕ × R)) : (bump c w m).map Prod.fst =
      if c ∈ m.map Prod.fst then m.map Prod.fst else m.map Prod.fst ++ [c] := by
  induction m with
  | nil => simp [bump]
  | cons e m ih =>
    rw [bump]
    by_cases h : e.1 = c
    · simp [h]
    · have h' : c ≠ e.1 := fun heq => h heq.symm
      simp only [if_neg h, map_cons, ih, mem_cons, h', false_or]
      split_ifs <;> rfl

theorem key_of_mem_foldl_bump [Zero R] [Add R] {β : Type} {key : β → ℕ} {val : β → R}
    {l : List β} {e : ℕ × R} (h : e ∈ l.foldl (fun m b => bump (key b) (val b) m) []) :
    ∃ b ∈ l, e.1 = key b := by
  -- the list is taken from its end: the last element makes the last bump
  induction l using reverseRecOn generalizing e with
  | nil => simp at h
  | append_singleton l b ih =>
    rw [foldl_append] at h
    rcases key_of_mem_bump h with h | ⟨g, hg, h⟩
    · exact ⟨b, by simp, h⟩
    · obtain ⟨b', hb', hg⟩ := ih hg
      exact ⟨b', by simp [hb'], h.trans hg⟩

theorem considered_mem [Zero R] [Sub R] [Mul R] [LT R] [DecidableLT R] (resolution kiOver2m : R) (commTotal : List R) (old : ℕ)
    (l : List (ℕ × R)) (best : R × ℕ) :
    (l.foldl (consider resolution kiOver2m commTotal old) best).2 = best.2 ∨
      ∃ e ∈ l, (l.foldl (consider resolution kiOver2m commTotal old) best).2 = e.1 := by
  induction l generalizing best with
  | nil => exact .inl rfl
  | cons e l ih =>
    have hstep : (consider resolution kiOver2m commTotal old best e).2 = best.2 ∨
        (consider resolution kiOver2m commTotal old best e).2 = e.1 := by
      simp only [consider]
      split_ifs <;> simp
    rcases ih (consider resolution kiOver2m commTotal old best e) with h | ⟨f, hf, h⟩
    · rcases hstep with hs | hs
      · exact .inl (h.trans hs)
      · exact .inr ⟨e, mem_cons_self, h.trans hs⟩
    · exact .inr ⟨f, mem_cons_of_mem _ hf, h⟩

theorem bestComm_mem [Zero R] [Add R] [Sub R] [Mul R] [Div R] [OfNat R 2] [LT R] [DecidableLT R]
    (resolution totalWeight : R) {order : List (ℕ × R) → List (ℕ × R)}
    (horder : ∀ m, (order m).Perm m) (comm : List ℕ) (commTotal : List R)
    (row : List (ℕ × R)) (ki : R) (old : ℕ) :
    bestComm resolution totalWeight order comm commTotal row ki old = old ∨
      ∃ e ∈ row, bestComm resolution totalWeight order comm commTotal row ki old =
        comm.getD e.1 0 := by
  rcases considered_mem resolution (ki / (2 * totalWeight)) commTotal old
    (order (commEdgeWeight comm row)) _ with h | ⟨e, he, h⟩
  · exact .inl h
  · obtain ⟨f, hf, hkey⟩ := key_of_mem_foldl_bump ((horder _).mem_iff.mp he)
    exact .inr ⟨f, hf, h.trans hkey⟩

variable [Zero R] [Add R] [Sub R] [Mul R] [Div R] [OfNat R 2] [LT R] [DecidableLT R]

namespace Computer

variable (C : Computer R) {adj : List (List (ℕ × R))} {comm : List ℕ}

theorem sweep_assigns (hadj : Closed adj) (hcomm : Assigns adj.length comm)
    (totalWeight : R) (level iter : ℕ) (nodeWeight : List R) :
    Assigns adj.length (C.sweep totalWeight level iter adj nodeWeight comm) := by
  refine ⟨by simp [sweep], ?_⟩
  intro c hc
  obtain ⟨u, hu, rfl⟩ := mem_map.mp hc
  have hu := mem_range.mp hu
  rcases bestComm_mem C.resolution totalWeight (C.order.edges_perm level iter u)
    comm (accumulateByComm adj.length comm nodeWeight) (adj.getD u []) (nodeWeight.getD u 0) (comm.getD u 0) with h | ⟨e, he, h⟩
  · rw [h]
    exact hcomm.getD_lt hu
  · rw [h]
    rw [getD_eq_getElem _ _ hu] at he
    exact hcomm.getD_lt (hadj _ (getElem_mem hu) e he)

theorem eq_of_movedCount {comm newComm : List ℕ} (hlen : newComm.length = comm.length)
    (h : movedCount comm newComm = 0) : newComm = comm := by
  rw [movedCount, countP_eq_zero] at h
  apply ext_getElem hlen
  intro i hi hi'
  have hmem : (comm[i], newComm[i]) ∈ comm.zip newComm :=
    mem_iff_getElem.mpr ⟨i, by simp [hi, hi'], by simp⟩
  simpa using h _ hmem

theorem moveLoop_invariant (totalWeight : R) (level : ℕ) (nodeWeight : List R) (P : List ℕ → Prop)
    (hstep : ∀ iter comm, P comm → P (C.sweep totalWeight level iter adj nodeWeight comm))
    (fuel iter : ℕ) (anyMoved : Bool) (h : P comm) :
    P (C.moveLoop totalWeight level adj nodeWeight fuel iter comm anyMoved).1 := by
  induction fuel generalizing iter comm anyMoved with
  | zero => exact h
  | succ fuel ih =>
    rw [moveLoop]
    split_ifs
    · exact hstep iter comm h
    · exact ih (iter + 1) true (hstep iter comm h)

theorem moveLoop_true (totalWeight : R) (level : ℕ) (nodeWeight : List R) (fuel iter : ℕ) :
    (C.moveLoop totalWeight level adj nodeWeight fuel iter comm true).2 = true := by
  induction fuel generalizing iter comm with
  | zero => rfl
  | succ fuel ih =>
    rw [moveLoop]
    split_ifs
    · rfl
    · exact ih (iter + 1)

theorem localMove_assigns {s : Level R} (hadj : Closed s.adj) (hcomm : Assigns s.adj.length s.comm)
    (totalWeight : R) (level : ℕ) : Assigns s.adj.length (C.localMove totalWeight level s).1 :=
  C.moveLoop_invariant totalWeight level s.nodeWeight (Assigns s.adj.length)
    (fun iter _ h => C.sweep_assigns hadj h totalWeight level iter s.nodeWeight) _ 0 false hcomm

theorem localMove_unimproved {s : Level R} (hadj : Closed s.adj)
    (hcomm : Assigns s.adj.length s.comm) {totalWeight : R} {level : ℕ}
    (h : (C.localMove totalWeight level s).2 = false) :
    (C.localMove totalWeight level s).1 = s.comm := by
  unfold localMove at h ⊢
  cases hfuel : C.maxIterations.toNat with
  | zero => rfl
  | succ fuel =>
    rw [hfuel, moveLoop] at h
    rw [moveLoop]
    split_ifs at h ⊢ with hmoved
    · have hnew := C.sweep_assigns hadj hcomm totalWeight level 0 s.nodeWeight
      exact eq_of_movedCount (hnew.length.trans hcomm.length.symm) hmoved
    · rw [moveLoop_true] at h
      cases h

end Computer

section

omit [Sub R] [Mul R] [Div R] [OfNat R 2] [LT R] [DecidableLT R]

/-- The entries of `coarse_adj_map` that one adjacency entry adds to. -/
def coarseUpdates (comm : List ℕ) (cu : ℕ) (e : ℕ × R) : List (ℕ × ℕ × R) :=
  let cv := comm.getD e.1 0
  if cu ≤ cv then (cu, cv, e.2) :: (if cu ≠ cv then [(cv, cu, e.2)] else []) else []

theorem coarseAdjMap_eq (num : ℕ) (comm : List ℕ) (adj : List (List (ℕ × R))) :
    coarseAdjMap num comm adj =
      ((comm.zip adj).flatMap fun e => e.2.flatMap (coarseUpdates comm e.1)).foldl
        (fun out e => out.modify e.1 (bump e.2.1 e.2.2)) (replicate num []) := by
  have hedge : ∀ cu, coarseEdge (R := R) comm cu = fun maps e =>
      (coarseUpdates comm cu e).foldl (fun out e => out.modify e.1 (bump e.2.1 e.2.2)) maps := by
    intro cu
    funext maps e
    simp only [coarseEdge, coarseUpdates]
    split_ifs <;> rfl
  rw [coarseAdjMap]
  simp [foldl_flatMap, hedge]

theorem getElem?_coarseAdjMap {num c : ℕ} (hc : c < num) (comm : List ℕ)
    (adj : List (List (ℕ × R))) : (coarseAdjMap num comm adj)[c]? = some
      ((((comm.zip adj).flatMap fun e => e.2.flatMap (coarseUpdates comm e.1)).filter
        (·.1 = c)).foldl (fun m e => bump e.2.1 e.2.2 m) []) := by
  rw [coarseAdjMap_eq, getElem?_foldl_modify (fun (e : ℕ × R) m => bump e.1 e.2 m),
    getElem?_replicate_of_lt hc, map_some]

theorem length_coarseAdjMap (num : ℕ) (comm : List ℕ) (adj : List (List (ℕ × R))) :
    (coarseAdjMap num comm adj).length = num := by
  rw [coarseAdjMap_eq, length_foldl_modify (fun (e : ℕ × R) m => bump e.1 e.2 m), length_replicate]

variable {comm : List ℕ}

theorem closed_coarseAdjMap {num : ℕ} {adj : List (List (ℕ × R))}
    (hlt : ∀ c ∈ comm, c < num) (hlen : comm.length = adj.length) (hadj : Closed adj)
    {row : List (ℕ × R)} (hrow : row ∈ coarseAdjMap num comm adj) {e : ℕ × R} (he : e ∈ row) :
    e.1 < num := by
  obtain ⟨c, hc⟩ := mem_iff_getElem?.mp hrow
  have hcn : c < num := by
    simpa [length_coarseAdjMap] using (List.getElem?_eq_some_iff.mp hc).1
  rw [getElem?_coarseAdjMap hcn, some.injEq] at hc
  subst hc
  obtain ⟨f, hf, hkey⟩ := key_of_mem_foldl_bump he
  obtain ⟨hf, -⟩ := mem_filter.mp hf
  obtain ⟨p, hp, hf⟩ := mem_flatMap.mp hf
  obtain ⟨g, hg, hf⟩ := mem_flatMap.mp hf
  obtain ⟨hp1, hp2⟩ := of_mem_zip hp
  have hcv : comm.getD g.1 0 < num := by
    have hlt' : g.1 < comm.length := hlen ▸ hadj _ hp2 g hg
    rw [getD_eq_getElem _ _ hlt']
    exact hlt _ (getElem_mem hlt')
  rw [hkey]
  simp only [coarseUpdates] at hf
  split_ifs at hf
  · simp only [mem_cons, not_mem_nil, or_false] at hf
    rcases hf with rfl | rfl
    · exact hcv
    · exact hlt _ hp1
  · simp only [mem_cons, not_mem_nil, or_false] at hf
    subst hf
    exact hcv
  · cases hf

theorem valid_initial (G : Graph R) : (Level.initial G.adj).Valid G.adj.length :=
  ⟨G.inRange, rfl, by simp [Level.initial], partitions_singletons _⟩

theorem length_coarsen_adj (order : ℕ → List (ℕ × R) → List (ℕ × R)) (num : ℕ) (s : Level R) :
    (coarsen order num s).adj.length = num := by
  simp [coarsen, length_coarseAdjMap]

theorem closed_coarsen {s : Level R} (h : Closed s.adj)
    (hcomm : comm.length = s.adj.length) {order : ℕ → List (ℕ × R) → List (ℕ × R)}
    (horder : ∀ c m, (order c m).Perm m) :
    Closed (coarsen order (renumber comm).2 { s with comm := (renumber comm).1 }).adj := by
  intro row hrow e he
  rw [length_coarsen_adj]
  obtain ⟨c, hc, rfl⟩ := mem_mapIdx.mp hrow
  exact closed_coarseAdjMap (renumbers comm).lt ((renumbers comm).length.trans hcomm) h
    (getElem_mem hc) ((horder c _).mem_iff.mp he)

theorem valid_coarsen {N : ℕ} {s : Level R} (h : s.Valid N)
    (hcomm : comm.length = s.adj.length) {order : ℕ → List (ℕ × R) → List (ℕ × R)}
    (horder : ∀ c m, (order c m).Perm m) :
    (coarsen order (renumber comm).2 { s with comm := (renumber comm).1 }).Valid N := by
  refine ⟨closed_coarsen h.closed hcomm horder, ?_, ?_, ?_⟩
  · rw [length_coarsen_adj]
    rfl
  · rw [length_coarsen_adj]
    exact length_newNodeToOrig _ _ _
  · exact partitions_newNodeToOrig (renumbers comm) (hcomm.trans h.nodes.symm) h.parts

end

def Refines (fine coarse : List (List ℕ)) : Prop :=
  ∀ c, ∃ d, ∀ i, Owns fine c i → Owns coarse d i

theorem refines_newNodeToOrig {num : ℕ} {comm ids : List ℕ} {nodeToOrig : List (List ℕ)}
    (hids : Renumbers comm ids num) (hlen : comm.length = nodeToOrig.length) :
    Refines nodeToOrig (newNodeToOrig num ids nodeToOrig) := by
  intro c
  refine ⟨ids.getD c 0, ?_⟩
  intro i hi
  have hlt : c < ids.length := by rw [hids.length, hlen]; exact hi.lt_length
  rw [getD_eq_getElem _ _ hlt]
  exact (owns_newNodeToOrig (hids.lt _ (getElem_mem hlt))).mpr ⟨c, getElem?_eq_getElem hlt, hi⟩

theorem Refines.trans {a b c : List (List ℕ)} (hab : Refines a b) (hbc : Refines b c) :
    Refines a c := by
  intro x
  obtain ⟨y, hy⟩ := hab x
  obtain ⟨z, hz⟩ := hbc y
  exact ⟨z, fun i hi => hz i (hy i hi)⟩

/-- The loop over the levels ends in a state as a level starts in, and every level that was
started is refined by it. -/
theorem Computer.levelLoop_valid (C : Computer R) (totalWeight : R) {N : ℕ} (fuel level : ℕ)
    {s : Level R} (h : s.Valid N) : (C.levelLoop totalWeight fuel level s).2.1.Valid N ∧
      Refines s.nodeToOrig (C.levelLoop totalWeight fuel level s).2.1.nodeToOrig ∧
      ∀ t ∈ (C.levelLoop totalWeight fuel level s).1,
        Refines t.nodeToOrig (C.levelLoop totalWeight fuel level s).2.1.nodeToOrig := by
  have hself : ∀ l : List (List ℕ), Refines l l := fun _ c => ⟨c, fun _ hi => hi⟩
  induction fuel generalizing level s with
  | zero => exact ⟨h, hself _, by simp [levelLoop]⟩
  | succ fuel ih =>
    have hmove := C.localMove_assigns h.closed h.assigns totalWeight level
    rw [levelLoop]
    cases hlocal : C.localMove totalWeight level s with
    | mk comm improved =>
      rw [hlocal] at hmove
      dsimp only
      split_ifs with hstop hnum
      · have hfalse : improved = false := by simpa using (Bool.and_eq_true_iff.mp hstop).1
        have hsame : comm = s.comm := by
          have := C.localMove_unimproved h.closed h.assigns (by rw [hlocal]; exact hfalse)
          rwa [hlocal] at this
        refine ⟨⟨h.closed, hsame.trans h.comm_eq, h.nodes, h.parts⟩, hself _, ?_⟩
        rintro t ht
        obtain rfl := mem_singleton.mp ht
        exact hself _
      · have hrange := renumber_of_num_eq (hnum.trans hmove.length.symm)
        rw [hmove.length] at hrange
        refine ⟨⟨h.closed, hrange, h.nodes, h.parts⟩, hself _, ?_⟩
        rintro t ht
        obtain rfl := mem_singleton.mp ht
        exact hself _
      · have hnext := valid_coarsen h hmove.length (C.order.coarse_perm level)
        have hfirst : Refines s.nodeToOrig (coarsen (C.order.coarse level) (renumber comm).2
              { s with comm := (renumber comm).1 }).nodeToOrig :=
          refines_newNodeToOrig (renumbers comm) (hmove.length.trans h.nodes.symm)
        obtain ⟨hvalid, hrefines, hall⟩ := ih (level + 1) hnext
        refine ⟨hvalid, hfirst.trans hrefines, ?_⟩
        intro t ht
        rcases mem_cons.mp ht with rfl | ht
        · exact hfirst.trans hrefines
        · exact hall t ht

theorem Computer.run_valid (C : Computer R) (G : Graph R) : (C.run G).2.1.Valid G.adj.length ∧
      ∀ t ∈ (C.run G).1, Refines t.nodeToOrig (C.run G).2.1.nodeToOrig := by
  obtain ⟨hvalid, -, hall⟩ := C.levelLoop_valid (totalWeight G.adj) C.maxLevels.toNat 0
    (valid_initial G)
  exact ⟨hvalid, hall⟩

def Together (s : Level R) (i j : ℕ) : Prop :=
  ∃ c, Owns s.nodeToOrig c i ∧ Owns s.nodeToOrig c j

def SameCommunity (s : Level R) (i j : ℕ) : Prop :=
  ∃ c d, Owns s.nodeToOrig c i ∧ Owns s.nodeToOrig d j ∧ s.comm[c]? = s.comm[d]?

section

omit [Zero R] [Add R] [Sub R] [Mul R] [Div R] [OfNat R 2] [LT R] [DecidableLT R]

variable {N : ℕ} {s : Level R} (h : s.Valid N)

include h

theorem Level.Valid.comm_get {c i : ℕ} (hc : Owns s.nodeToOrig c i) : s.comm[c]? = some c := by
  rw [h.comm_eq, getElem?_range (h.nodes ▸ hc.lt_length)]

theorem Level.Valid.mem_mapBack (c : ℕ) : c ∈ mapBack N s ↔ c < s.adj.length := by
  constructor
  · intro hc
    obtain ⟨i, hi⟩ := mem_iff_getElem?.mp hc
    have hiN : i < N := by simpa [length_mapBack] using (List.getElem?_eq_some_iff.mp hi).1
    obtain ⟨d, hd⟩ := h.parts.cover hiN
    rw [getElem?_mapBack h.parts hd (h.comm_get hd), some.injEq] at hi
    subst hi
    exact h.nodes ▸ hd.lt_length
  · intro hc
    obtain ⟨i, hi⟩ := h.parts.occupied (h.nodes.symm ▸ hc)
    exact mem_of_getElem? (getElem?_mapBack h.parts hi (h.comm_get hi))

theorem Level.Valid.length_dedup : (mapBack N s).dedup.length = s.adj.length := by
  have hset : (mapBack N s).toFinset = Finset.range s.adj.length := by
    ext c
    rw [List.mem_toFinset, h.mem_mapBack, Finset.mem_range]
  rw [← List.card_toFinset, hset, Finset.card_range]

theorem Level.Valid.mapBack_eq_iff {i j : ℕ} (hi : i < N) (hj : j < N) :
    (mapBack N s)[i]? = (mapBack N s)[j]? ↔ SameCommunity s i j := by
  obtain ⟨c, hc⟩ := h.parts.cover hi
  obtain ⟨d, hd⟩ := h.parts.cover hj
  rw [getElem?_mapBack h.parts hc (h.comm_get hc), getElem?_mapBack h.parts hd (h.comm_get hd)]
  constructor
  · intro hcd
    exact ⟨c, d, hc, hd, by rw [h.comm_get hc, h.comm_get hd, hcd]⟩
  · rintro ⟨c', d', hc', hd', heq⟩
    rwa [h.parts.unique hc hc', h.parts.unique hd hd', ← h.comm_get hc', ← h.comm_get hd']

end

variable [LE R] [DecidableLE R]

/-- `Compute` returns a partition. Every vertex has one id, the ids are the numbers below
`num_communities`, and two vertices share one exactly when some level had them in one node or the
last level has them in one community. -/
theorem compute_partition (C : Computer R) (G : Graph R) :
    (C.compute G).community.length = G.adj.length ∧
      (∀ c, c ∈ (C.compute G).community ↔ c < (C.compute G).numCommunities) ∧
      ∀ i j : Fin G.adj.length,
        ((C.compute G).community[i.val]? = (C.compute G).community[j.val]? ↔
          (∃ s ∈ (C.run G).1, Together s i j) ∨ SameCommunity (C.run G).2.1 i j) := by
  by_cases hempty : G.adj.length = 0
  · refine ⟨by simp [Computer.compute, hempty], by simp [Computer.compute, hempty], ?_⟩
    intro i
    exact absurd i.isLt (by omega)
  · obtain ⟨hvalid, hall⟩ := C.run_valid G
    have hcommunity : (C.compute G).community = mapBack G.adj.length (C.run G).2.1 := by
      simp [Computer.compute, hempty]
    have hnum : (C.compute G).numCommunities =
        (mapBack G.adj.length (C.run G).2.1).dedup.length := by
      simp [Computer.compute, hempty]
    rw [hcommunity, hnum]
    refine ⟨length_mapBack _ _, ?_, ?_⟩
    · intro c
      rw [hvalid.length_dedup]
      exact hvalid.mem_mapBack c
    · intro i j
      rw [hvalid.mapBack_eq_iff i.isLt j.isLt]
      constructor
      · exact .inr
      · rintro (⟨s, hs, c, hi, hj⟩ | hsame)
        · obtain ⟨d, hd⟩ := hall s hs c
          exact ⟨d, d, hd i hi, hd j hj, rfl⟩
        · exact hsame

end Neug.Louvain
