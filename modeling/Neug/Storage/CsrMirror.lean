import Neug.Storage.MutableCsr

/-! Two CSRs that mirror each other: between any two vertices, one holds from the first to the
second the live entries that the other holds from the second to the first. -/
namespace Neug.Storage
open List MutableCsr

variable {D : Type}

namespace Nbr

/-- What an entry contributes to the live edges that lead to `w`. -/
def live (w : ℕ) (n : Nbr D) : Multiset (ℕ × D) :=
  if n.neighbor = w ∧ n.timestamp ≠ invalidTimestamp then {(n.timestamp, n.data)} else 0

/-- The entry that the other CSR holds for an entry of the list of `v`. -/
def image (v : ℕ) (n : Nbr D) : Nbr D := { n with neighbor := v }

theorem live_of_ne {w : ℕ} {n : Nbr D} (h : n.neighbor ≠ w) : n.live w = 0 := by
  simp [live, h]

theorem live_tombstone (w : ℕ) (n : Nbr D) : n.tombstone.live w = 0 := by
  simp [live, tombstone]

end Nbr

/-- The live edges of a list that lead to `w`. -/
def liveTo (l : List (Nbr D)) (w : ℕ) : Multiset (ℕ × D) := (l.map (Nbr.live w)).sum

@[simp] theorem liveTo_nil (w : ℕ) : liveTo ([] : List (Nbr D)) w = 0 := rfl

@[simp] theorem liveTo_cons (n : Nbr D) (l : List (Nbr D)) (w : ℕ) :
    liveTo (n :: l) w = n.live w + liveTo l w := by
  simp [liveTo]

variable {w : ℕ} {l : List (Nbr D)}

theorem liveTo_set {i : ℕ} {n : Nbr D} (h : l[i]? = some n) (n' : Nbr D)
    (w : ℕ) : liveTo (l.set i n') w + n.live w = liveTo l w + n'.live w := by
  induction l generalizing i with
  | nil => simp at h
  | cons m l ih =>
    cases i with
    | zero =>
      obtain rfl : m = n := by simpa using h
      simp only [set_cons_zero, liveTo_cons]
      abel
    | succ i =>
      have := ih (by simpa using h)
      simp [add_assoc, this]

theorem liveTo_filter {p : Nbr D → Bool}
    (h : ∀ n ∈ l, p n = false → n.live w = 0) : liveTo (l.filter p) w = liveTo l w := by
  induction l with
  | nil => rfl
  | cons n l ih =>
    have hrest := ih fun m hm => h m (mem_cons_of_mem _ hm)
    cases hp : p n with
    | true => rw [filter_cons_of_pos hp, liveTo_cons, liveTo_cons, hrest]
    | false =>
      rw [filter_cons_of_neg (by simp [hp]), liveTo_cons, hrest, h n mem_cons_self hp, zero_add]

theorem liveTo_eq_zero (h : ∀ n ∈ l, n.live w = 0) : liveTo l w = 0 := by
  rw [← liveTo_filter (p := fun _ => false) fun n hn _ => h n hn]
  simp

theorem liveTo_map {f : Nbr D → Nbr D}
    (h : ∀ n ∈ l, (f n).live w = n.live w) : liveTo (l.map f) w = liveTo l w := by
  unfold liveTo
  rw [List.map_map]
  exact congrArg sum (map_congr_left h)

theorem mem_liveTo {x : ℕ × D} :
    x ∈ liveTo l w ↔ ∃ n ∈ l, n.neighbor = w ∧ n.timestamp ≠ invalidTimestamp ∧
      x = (n.timestamp, n.data) := by
  induction l with
  | nil => simp
  | cons n l ih =>
    rw [liveTo_cons, Multiset.mem_add, ih]
    simp only [Nbr.live, mem_cons, exists_eq_or_imp]
    split_ifs with hn
    · simp [hn]
    · simp only [Multiset.notMem_zero, false_or]
      constructor
      · exact .inr
      · rintro (⟨h1, h2, -⟩ | h)
        · exact absurd ⟨h1, h2⟩ hn
        · exact h

namespace MutableCsr

def live (c : MutableCsr D) (v w : ℕ) : Multiset (ℕ × D) := liveTo (c.list v) w

/-- `a` and `b` hold the same live edges, seen from their two ends. -/
def Mirrored (a b : MutableCsr D) : Prop := ∀ v w, a.live v w = b.live w v

variable {a b c : MutableCsr D} {u v w i j : ℕ} {n : Nbr D}

theorem Mirrored.symm (h : Mirrored a b) : Mirrored b a := fun v w => (h w v).symm

theorem lt_size_of_live {x : ℕ × D} (h : x ∈ c.live v w) : v < c.size := by
  by_contra hv
  simp [live, list_of_size_le (not_lt.mp hv)] at h

theorem mem_live_of_getElem? (h : (c.list v)[i]? = some n) (hn : n.timestamp ≠ invalidTimestamp) :
    (n.timestamp, n.data) ∈ c.live v n.neighbor :=
  mem_liveTo.mpr ⟨n, mem_of_getElem? h, rfl, hn, rfl⟩

theorem live_push (hv : v < c.size) (n : Nbr D) (u w : ℕ) :
    (c.push v n).live u w = c.live u w + if u = v then n.live w else 0 := by
  unfold live
  rw [list_push hv]
  split_ifs with hu
  · simp [liveTo, hu]
  · simp

theorem live_setNbr (h : (c.list v)[i]? = some n) (n' : Nbr D) (u w : ℕ) :
    (c.setNbr v i n').live u w + (if u = v then n.live w else 0) =
      c.live u w + if u = v then n'.live w else 0 := by
  unfold live
  rw [list_setNbr (lt_size_of_getElem? h)]
  split_ifs with hu
  · rw [hu]
    exact liveTo_set h n' w
  · rfl

/-- An edge contributes to the same pair of vertices on both sides. -/
theorem live_image (n : Nbr D) (v u w : ℕ) :
    (if u = v then n.live w else 0) = if w = n.neighbor then (n.image v).live u else 0 := by
  unfold Nbr.live Nbr.image
  by_cases hu : u = v <;> by_cases hw : w = n.neighbor <;>
    simp [hu, hw, eq_comm (a := v), eq_comm]

theorem Mirrored.push (h : Mirrored a b) (hv : v < a.size) (hw : w < b.size) (ts : ℕ) (d : D) :
    Mirrored (a.push v ⟨w, ts, d⟩) (b.push w ⟨v, ts, d⟩) := by
  intro x y
  rw [live_push hv, live_push hw, h x y, live_image]
  rfl

theorem Mirrored.setNbr (h : Mirrored a b) (ha : (a.list v)[i]? = some n)
    (hb : (b.list n.neighbor)[j]? = some (n.image v)) {n' : Nbr D}
    (hn' : n'.neighbor = n.neighbor) :
    Mirrored (a.setNbr v i n') (b.setNbr n.neighbor j (n'.image v)) := by
  intro x y
  have hleft := live_setNbr ha n' x y
  have hright := live_setNbr hb (n'.image v) y x
  rw [live_image n v x y, live_image n' v x y, hn'] at hleft
  rw [h x y, ← hright] at hleft
  exact add_right_cancel hleft

variable {ts : ℕ}

section

variable (h : Mirrored a b) (ha : (a.list v)[i]? = some n)
  (hb : (b.list n.neighbor)[j]? = some (n.image v))
include h ha hb

theorem Mirrored.deleteEdge {a' b' : MutableCsr D}
    (ha' : a.deleteEdge v i ts = .ok a') (hb' : b.deleteEdge n.neighbor j ts = .ok b') :
    Mirrored a' b' := by
  have htomb : Mirrored (a.setNbr v i n.tombstone) (b.setNbr n.neighbor j (n.tombstone.image v)) :=
    h.setNbr ha hb rfl
  simp only [MutableCsr.deleteEdge, ha, hb, Nbr.image] at ha' hb'
  split_ifs at ha' hb' with hts
  · cases ha'
    cases hb'
    exact htomb
  · cases ha'
    cases hb'
    exact h

theorem Mirrored.revertDeleteEdge {a' b' : MutableCsr D}
    (ha' : a.revertDeleteEdge v n.neighbor i ts = .ok a')
    (hb' : b.revertDeleteEdge n.neighbor v j ts = .ok b') : Mirrored a' b' := by
  have hset : Mirrored (a.setNbr v i { n with timestamp := ts })
      (b.setNbr n.neighbor j (Nbr.image v { n with timestamp := ts })) := h.setNbr ha hb rfl
  simp only [MutableCsr.revertDeleteEdge, ha, hb] at ha' hb'
  split_ifs at ha' hb'
  cases ha'
  cases hb'
  exact hset

end

theorem getElem?_tombstoneAt (c : MutableCsr D) (p q : ℕ × ℕ) : ((c.tombstoneAt p).list q.1)[q.2]? =
      if q = p then ((c.list q.1)[q.2]?).map Nbr.tombstone else (c.list q.1)[q.2]? := by
  unfold tombstoneAt
  cases hp : (c.list p.1)[p.2]? with
  | none =>
    split_ifs with hq
    · rw [hq, hp]
      rfl
    · rfl
  | some n =>
    change ((c.setNbr p.1 p.2 n.tombstone).list q.1)[q.2]? = _
    have hlen := (List.getElem?_eq_some_iff.mp hp).1
    rw [list_setNbr (lt_size_of_getElem? hp)]
    by_cases hq : q = p
    · subst hq
      rw [if_pos rfl, if_pos rfl, getElem?_set_self hlen, hp]
      rfl
    · rw [if_neg hq]
      split_ifs with h1
      · have h2 : p.2 ≠ q.2 := fun h2 => hq (Prod.ext h1 h2.symm)
        rw [getElem?_set_ne h2, h1]
      · rfl

/-- Offsets on both sides that name the two ends of the same edges: position by position the
entries are images of each other, and an offset is repeated on one side where it is on the
other. -/
structure Paired (a b : MutableCsr D) (ps : List ((ℕ × ℕ) × (ℕ × ℕ))) : Prop where
  image : ∀ p ∈ ps, ∃ n, (a.list p.1.1)[p.1.2]? = some n ∧ n.neighbor = p.2.1 ∧
    (b.list p.2.1)[p.2.2]? = some (n.image p.1.1)
  same : ∀ p ∈ ps, ∀ q ∈ ps, p.1 = q.1 ↔ p.2 = q.2

theorem Paired.tombstoneAt {p : (ℕ × ℕ) × (ℕ × ℕ)} {ps : List ((ℕ × ℕ) × (ℕ × ℕ))}
    (h : Paired a b (p :: ps)) : Paired (a.tombstoneAt p.1) (b.tombstoneAt p.2) ps where
  image q hq := by
    obtain ⟨n, hn, hnbr, himg⟩ := h.image q (mem_cons_of_mem _ hq)
    have hsame := h.same q (mem_cons_of_mem _ hq) p mem_cons_self
    rw [getElem?_tombstoneAt, getElem?_tombstoneAt, hn, himg]
    by_cases hqp : q.1 = p.1
    · rw [if_pos hqp, if_pos (hsame.mp hqp)]
      exact ⟨n.tombstone, rfl, hnbr, rfl⟩
    · rw [if_neg hqp, if_neg (fun h2 => hqp (hsame.mpr h2))]
      exact ⟨n, rfl, hnbr, rfl⟩
  same q hq r hr := h.same q (mem_cons_of_mem _ hq) r (mem_cons_of_mem _ hr)

theorem Mirrored.tombstoneAt (h : Mirrored a b) {p : (ℕ × ℕ) × (ℕ × ℕ)}
    (ha : (a.list p.1.1)[p.1.2]? = some n) (hn : n.neighbor = p.2.1)
    (hb : (b.list p.2.1)[p.2.2]? = some (n.image p.1.1)) :
    Mirrored (a.tombstoneAt p.1) (b.tombstoneAt p.2) := by
  rw [← hn] at hb
  have hset : Mirrored (a.setNbr p.1.1 p.1.2 n.tombstone)
      (b.setNbr n.neighbor p.2.2 (n.tombstone.image p.1.1)) := h.setNbr ha hb rfl
  unfold MutableCsr.tombstoneAt
  rw [← hn, ha, hb]
  exact hset

theorem Mirrored.batchDeleteOffsets {ps : List ((ℕ × ℕ) × (ℕ × ℕ))} (h : Mirrored a b)
    (hp : Paired a b ps) :
    Mirrored (a.batchDeleteOffsets (ps.map Prod.fst)) (b.batchDeleteOffsets (ps.map Prod.snd)) := by
  induction ps generalizing a b with
  | nil => exact h
  | cons p ps ih =>
    obtain ⟨n, hn, hnbr, himg⟩ := hp.image p mem_cons_self
    exact ih (h.tombstoneAt hn hnbr himg) hp.tombstoneAt

theorem live_batchDeletePairs (c : MutableCsr D) (pairs : List (ℕ × ℕ)) (v w : ℕ) :
    (c.batchDeletePairs pairs).live v w = if (v, w) ∈ pairs then 0 else c.live v w := by
  change liveTo ((c.adj.mapIdx _).getD v []) w = _
  rw [getD_mapIdx _ _ fun _ => rfl]
  split_ifs with hp
  · refine liveTo_eq_zero fun n hn => ?_
    obtain ⟨m, -, rfl⟩ := mem_map.mp hn
    split_ifs with hm
    · exact Nbr.live_tombstone w m
    · exact Nbr.live_of_ne fun hw => hm (hw ▸ hp)
  · refine liveTo_map fun n _ => ?_
    split_ifs with hn
    · have hw : n.neighbor ≠ w := fun hw => hp (hw ▸ hn)
      rw [Nbr.live_tombstone, Nbr.live_of_ne hw]
    · rfl

theorem Mirrored.batchDeletePairs (h : Mirrored a b) (pairs : List (ℕ × ℕ)) :
    Mirrored (a.batchDeletePairs pairs) (b.batchDeletePairs (pairs.map Prod.swap)) := by
  intro v w
  have hswap : (w, v) ∈ pairs.map Prod.swap ↔ (v, w) ∈ pairs := by
    simp
  simp only [live_batchDeletePairs, hswap, h v w]

theorem live_batchDeleteVertices (c : MutableCsr D) (srcSet dstSet : Finset ℕ) (v w : ℕ) :
    (c.batchDeleteVertices srcSet dstSet).live v w =
      if v ∈ srcSet ∨ w ∈ dstSet then 0 else c.live v w := by
  change liveTo ((c.adj.mapIdx _).getD v []) w = _
  rw [getD_mapIdx _ _ fun _ => by simp]
  by_cases hv : v ∈ srcSet
  · simp [hv]
  · simp only [hv, if_false, false_or]
    split_ifs with hw
    · refine liveTo_eq_zero fun n hn => Nbr.live_of_ne fun hnw => ?_
      have := (mem_filter.mp hn).2
      simp [hnw, hw] at this
    · refine liveTo_filter fun n _ hn => Nbr.live_of_ne fun hnw => ?_
      simp [hnw, hw] at hn

theorem Mirrored.batchDeleteVertices (h : Mirrored a b) (srcSet dstSet : Finset ℕ) :
    Mirrored (a.batchDeleteVertices srcSet dstSet) (b.batchDeleteVertices dstSet srcSet) := by
  intro v w
  simp [live_batchDeleteVertices, h v w, or_comm]

theorem live_compact (c : MutableCsr D) (v w : ℕ) : c.compact.1.live v w = c.live v w := by
  change liveTo ((c.adj.map _).getD v []) w = _
  rw [getD_map _ _ rfl]
  refine liveTo_filter fun n _ hn => ?_
  have : n.timestamp = invalidTimestamp := by simpa [Nbr.alive] using hn
  simp [Nbr.live, this]

theorem live_batchSortByEdgeData (lt : D → D → Bool) (c : MutableCsr D) (ts v w : ℕ) :
    (c.batchSortByEdgeData lt ts).live v w = c.live v w := by
  change liveTo ((c.adj.map _).getD v []) w = _
  rw [getD_map _ _ rfl]
  exact ((perm_insertionSort _ _).map _).sum_eq

theorem zero_ne_invalid : 0 ≠ invalidTimestamp := by decide

theorem live_resetTimestamp (c : MutableCsr D) (v w : ℕ) :
    c.resetTimestamp.live v w = (c.live v w).map fun x => (0, x.2) := by
  unfold live
  change liveTo ((c.adj.map _).getD v []) w = _
  rw [getD_map _ _ rfl]
  change liveTo ((c.list v).map _) w = _
  induction c.list v with
  | nil => rfl
  | cons n l ih =>
    rw [map_cons, liveTo_cons, liveTo_cons, Multiset.map_add]
    congr 1
    by_cases hn : n.timestamp = invalidTimestamp
    · simp [Nbr.live, Nbr.alive, hn]
    · by_cases hw : n.neighbor = w
      · simp [Nbr.live, Nbr.alive, hn, hw, zero_ne_invalid]
      · simp [Nbr.live, Nbr.alive, hn, hw]

theorem Mirrored.resetTimestamp (h : Mirrored a b) :
    Mirrored a.resetTimestamp b.resetTimestamp := by
  intro v w
  rw [live_resetTimestamp, live_resetTimestamp, h v w]

theorem live_resize {vnum : ℕ} (h : ∀ v ≥ vnum, ∀ n ∈ c.list v, n.alive = false) (v w : ℕ) :
    (c.resize vnum).live v w = c.live v w := by
  unfold live
  by_cases hv : v < vnum
  · congr 1
    change (c.adj.take vnum ++ replicate (vnum - c.size) []).getD v [] = c.adj.getD v []
    simp only [getD_eq_getElem?_getD, getElem?_append, length_take,
      getElem?_take, getElem?_replicate]
    by_cases hc : v < c.adj.length
    · rw [if_pos (by omega), if_pos hv]
    · rw [getElem?_eq_none (not_lt.mp hc)]
      split_ifs <;> rfl
  · have hnone : (c.resize vnum).list v = [] := by
      refine list_of_size_le ?_
      simp only [resize, size, length_append, length_take, length_replicate]
      omega
    rw [hnone, liveTo_nil, liveTo_eq_zero]
    intro n hn
    have : n.timestamp = invalidTimestamp := by
      simpa [Nbr.alive] using h v (not_lt.mp hv) n hn
    simp [Nbr.live, this]

@[simp] theorem size_resize (c : MutableCsr D) (vnum : ℕ) : (c.resize vnum).size = vnum := by
  simp only [resize, size, length_append, length_take, length_replicate]
  omega

@[simp] theorem size_putRow (c : MutableCsr D) (ts : ℕ) (row : ℕ × ℕ × D) :
    (putRow ts c row).size = c.size := by
  unfold putRow
  split_ifs <;> simp

theorem Mirrored.batchPutEdges (h : Mirrored a b) {rows : List (ℕ × ℕ × D)}
    (hrows : ∀ r ∈ rows, r.1 < a.size ↔ r.2.1 < b.size) : Mirrored (a.batchPutEdges rows ts)
      (b.batchPutEdges (rows.map fun r => (r.2.1, r.1, r.2.2)) ts) := by
  induction rows generalizing a b with
  | nil => exact h
  | cons r rows ih =>
    have hr := hrows r mem_cons_self
    refine ih ?_ fun q hq => by simpa using hrows q (mem_cons_of_mem _ hq)
    unfold putRow
    by_cases h1 : r.1 < a.size
    · rw [if_pos h1, if_pos (hr.mp h1)]
      exact h.push h1 (hr.mp h1) ts r.2.2
    · rw [if_neg h1, if_neg (fun h2 => h1 (hr.mpr h2))]
      exact h

theorem mem_batchExport {e : ℕ × ℕ × D} (h : e ∈ c.batchExport) :
    ∃ ts, (ts, e.2.2) ∈ c.live e.1 e.2.1 := by
  obtain ⟨l, hl, he⟩ := mem_flatten.mp h
  obtain ⟨v, hv, rfl⟩ := mem_mapIdx.mp hl
  obtain ⟨n, hn, rfl⟩ := mem_map.mp he
  obtain ⟨hmem, halive⟩ := mem_filter.mp hn
  refine ⟨n.timestamp, mem_liveTo.mpr ⟨n, ?_, rfl, by simpa [Nbr.alive] using halive, rfl⟩⟩
  simpa [list, getElem?_eq_getElem hv] using hmem

/-- Where the parts of a list are marked by their positions, an element is counted in one
part. -/
theorem count_flatten_mapIdx {α E : Type} [BEq E] [LawfulBEq E] (key : E → ℕ) (parts : List α)
    (f : ℕ → α → List E) (k : ℕ) (hkey : ∀ i x, ∀ e ∈ f i x, key e = k + i) (e : E) :
    (parts.mapIdx f).flatten.count e =
      if k ≤ key e then ((parts[key e - k]?).map fun x => (f (key e - k) x).count e).getD 0
      else 0 := by
  induction parts generalizing f k with
  | nil => simp
  | cons x parts ih =>
    rw [mapIdx_cons, flatten_cons, count_append,
      ih (fun i => f (i + 1)) (k + 1) fun i y e he => by rw [hkey (i + 1) y e he]; omega]
    have hhere : key e ≠ k → (f 0 x).count e = 0 := fun hne =>
      count_eq_zero_of_not_mem fun he => hne (by simpa using hkey 0 x e he)
    by_cases hk : key e = k
    · simp [hk]
    · rw [hhere hk]
      by_cases hlt : k ≤ key e
      · obtain ⟨j, hj⟩ : ∃ j, key e - k = j + 1 := ⟨key e - k - 1, by omega⟩
        have hj' : key e - (k + 1) = j := by omega
        simp [hlt, show k + 1 ≤ key e by omega, hj, hj']
      · simp [hlt, show ¬ k + 1 ≤ key e by omega]

theorem count_view [DecidableEq D] {t : ℕ} (ht : t < invalidTimestamp) (c : MutableCsr D)
    (v w : ℕ) (d : D) : (c.view t).count (v, w, d) =
      (((c.live v w).filter fun x => x.1 ≤ t).map Prod.snd).count d := by
  have hlist : ∀ l : List (Nbr D),
      ((l.filter (Nbr.visible t)).map fun n => (v, n.neighbor, n.data)).count (v, w, d) =
        (((liveTo l w).filter fun x => x.1 ≤ t).map Prod.snd).count d := by
    intro l
    induction l with
    | nil => rfl
    | cons n l ih =>
      rw [liveTo_cons, Multiset.filter_add, Multiset.map_add, Multiset.count_add, ← ih]
      unfold Nbr.live
      by_cases hvis : n.timestamp ≤ t
      · have hne : n.timestamp ≠ invalidTimestamp := by omega
        rw [filter_cons_of_pos (by simpa [Nbr.visible] using hvis), map_cons, count_cons, add_comm]
        congr 1
        by_cases hw : n.neighbor = w
        · simp [hw, hne, hvis, Multiset.filter_singleton, Multiset.count_singleton,
            @eq_comm D n.data]
        · simp [hw]
      · rw [filter_cons_of_neg (by simpa [Nbr.visible] using hvis)]
        split_ifs <;> simp [hvis]
  unfold view
  rw [count_flatten_mapIdx Prod.fst _ _ 0 (by
    intro i l e he
    obtain ⟨n, -, rfl⟩ := mem_map.mp he
    simp)]
  unfold live list
  simp only [zero_le, getD_eq_getElem?_getD]
  cases hv : c.adj[v]? with
  | none => simp
  | some l => simpa using hlist l

theorem Mirrored.view_perm (h : Mirrored a b) {t : ℕ} (ht : t < invalidTimestamp) :
    (a.view t).Perm ((b.view t).map fun e => (e.2.1, e.1, e.2.2)) := by
  classical
  rw [perm_iff_count]
  rintro ⟨v, w, d⟩
  have hswap : Function.Injective fun e : ℕ × ℕ × D => (e.2.1, e.1, e.2.2) := by
    rintro ⟨v₁, w₁, d₁⟩ ⟨v₂, w₂, d₂⟩ he
    simp only [Prod.mk.injEq] at he
    simp [he]
  rw [count_view ht, h v w, ← count_view ht]
  exact (count_map_of_injective _ _ hswap (w, v, d)).symm

theorem mirrored_fresh (k m : ℕ) : Mirrored (empty.resize k : MutableCsr D) (empty.resize m) := by
  intro v w
  rw [live_resize (by simp [empty, list]), live_resize (by simp [empty, list])]
  rfl

end MutableCsr

end Neug.Storage
