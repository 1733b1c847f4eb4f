import Neug.Extension.KCoreBuckets
import Neug.Lib.Core

/-! `RunKCore` computes core numbers. While vertices are peeled in the order of their degrees, the
degree kept for a vertex that is left is its number of neighbours left, but never less than the
level the peeling has reached. -/
namespace Neug.KCore

open Neug.Lib Neug.Lib.Core Finset Option
open List hiding mem_insert_of_mem mem_range range

def Graph.Symmetric (G : Graph) : Prop :=
  ∀ u v, v ∈ G.adj.getD u [] → u ∈ G.adj.getD v []

section

theorem mem_nbrOf {u x : ℕ} {row : List ℕ} : x ∈ nbrOf u row ↔ x ≠ u ∧ x ∈ row := by
  have hgen : ∀ (row out : List ℕ), x ∈ row.foldl (fun out v =>
      if v = u then out else if v ∈ out then out else out ++ [v]) out ↔
        x ∈ out ∨ x ≠ u ∧ x ∈ row := by
    intro row
    induction row with
    | nil => simp
    | cons v row ih =>
      intro out
      rw [foldl_cons, ih]
      by_cases hvu : v = u
      · simp only [hvu, List.mem_cons]
        tauto
      · by_cases hmem : v ∈ out
        · simp only [hvu, hmem, List.mem_cons]
          constructor
          · tauto
          · rintro (h | ⟨hx, rfl | h⟩)
            · exact .inl h
            · exact .inl hmem
            · exact .inr ⟨hx, h⟩
        · simp only [hvu, hmem, if_false, mem_append, List.mem_cons, not_mem_nil, or_false]
          constructor
          · rintro ((h | rfl) | h)
            · exact .inl h
            · exact .inr ⟨hvu, .inl rfl⟩
            · exact .inr ⟨h.1, .inr h.2⟩
          · tauto
  simpa [nbrOf] using hgen row []

theorem nodup_nbrOf (u : ℕ) (row : List ℕ) : (nbrOf u row).Nodup := by
  have hgen : ∀ (row out : List ℕ), out.Nodup → (row.foldl (fun out v =>
      if v = u then out else if v ∈ out then out else out ++ [v]) out).Nodup := by
    intro row
    induction row with
    | nil => exact fun _ h => h
    | cons v row ih =>
      intro out h
      rw [foldl_cons]
      apply ih
      split_ifs with hvu hmem
      · exact h
      · exact h
      · exact h.append (nodup_singleton v) (disjoint_singleton.mpr hmem)
  exact hgen row [] nodup_nil

def Graph.neighbours (G : Graph) (u : ℕ) : Finset ℕ :=
  (G.nbr.getD u []).toFinset

variable {G : Graph}

theorem getD_nbr (G : Graph) {u : ℕ} (hu : u < G.adj.length) :
    G.nbr.getD u [] = nbrOf u (G.adj.getD u []) := by
  rw [getD_eq_getElem?_getD, Graph.nbr, getElem?_mapIdx, getElem?_eq_getD hu []]
  rfl

theorem mem_neighbours {u x : ℕ} (hu : u < G.adj.length) :
    x ∈ G.neighbours u ↔ x ≠ u ∧ x ∈ G.adj.getD u [] := by
  rw [Graph.neighbours, List.mem_toFinset, getD_nbr G hu, mem_nbrOf]

theorem lt_of_mem_neighbours (u : ℕ) {x : ℕ} (hx : x ∈ G.neighbours u) : x < G.adj.length := by
  by_cases hu : u < G.adj.length
  · have hmem := ((mem_neighbours hu).mp hx).2
    rw [getD_eq_getElem _ _ hu] at hmem
    exact G.inRange _ (getElem_mem hu) x hmem
  · rw [Graph.neighbours, getD_eq_default _ _ (by simp [Graph.nbr]; omega)] at hx
    simp at hx

theorem neighbours_symm (hsymm : G.Symmetric) {u v : ℕ} (hu : u < G.adj.length)
    (hv : v < G.adj.length) : u ∈ G.neighbours v ↔ v ∈ G.neighbours u := by
  rw [mem_neighbours hu, mem_neighbours hv]
  exact ⟨fun h => ⟨h.1.symm, hsymm v u h.2⟩, fun h => ⟨h.1.symm, hsymm u v h.2⟩⟩

theorem card_neighbours (G : Graph) {u : ℕ} (hu : u < G.adj.length) :
    (G.neighbours u).card = (G.nbr.map List.length).getD u 0 := by
  have hnbr : u < G.nbr.length := by simpa [Graph.nbr] using hu
  rw [Graph.neighbours, toFinset_card_of_nodup, getD_eq_getElem _ _ hnbr,
    getD_eq_getElem _ _ (by simpa using hnbr), getElem_map]
  rw [getD_nbr G hu]
  exact nodup_nbrOf u _

end

section

variable {n md i : ℕ} {s : Arrays} (h : s.Valid n md) (hi : i < n) {row : List ℕ}
  (hrow : ∀ u ∈ row, u < n) (hnodup : row.Nodup)

include h hi hrow hnodup

/-- Peeling the vertex at place `i` lowers each of its neighbours with a larger degree by one and
leaves the places up to `i` alone. -/
theorem lowerAll_eq : ∃ t, row.foldlM (lower (s.vert.getD i 0)) s = some t ∧ t.Valid n md ∧
      (∀ p ≤ i, t.vert.getD p 0 = s.vert.getD p 0) ∧
      ∀ u, t.deg.getD u 0 = if u ∈ row ∧ s.deg.getD (s.vert.getD i 0) 0 < s.deg.getD u 0
        then s.deg.getD u 0 - 1 else s.deg.getD u 0 := by
  obtain ⟨v, hv⟩ : ∃ v, s.vert.getD i 0 = v := ⟨_, rfl⟩
  have hvn : v < n := hv ▸ h.binned.item_lt i hi
  rw [hv]
  refine foldlM_invariant (fun pre (t : Arrays) => t.Valid n md ∧
      (∀ p ≤ i, t.vert.getD p 0 = s.vert.getD p 0) ∧
      ∀ u, t.deg.getD u 0 = if u ∈ pre ∧ s.deg.getD v 0 < s.deg.getD u 0
        then s.deg.getD u 0 - 1 else s.deg.getD u 0) ⟨h, fun _ _ => rfl, by simp⟩ ?_
  rintro pre a post t hl ⟨ht, hvert, hdeg⟩
  have han : a < n := hrow a (by rw [hl]; simp)
  have hapre : a ∉ pre := by
    rw [hl] at hnodup
    exact fun hmem => (nodup_append.mp hnodup).2.2 a hmem a mem_cons_self rfl
  have hta : t.deg.getD a 0 = s.deg.getD a 0 := by rw [hdeg, if_neg fun hc => hapre hc.1]
  have htv : t.deg.getD v 0 = s.deg.getD v 0 := by rw [hdeg, if_neg fun hc => lt_irrefl _ hc.2]
  by_cases hlt : s.deg.getD v 0 < s.deg.getD a 0
  · obtain ⟨t', ht', hvalid, hdeg', hvert'⟩ := lower_of_lt ht han hvn (by rw [hta, htv]; exact hlt)
    refine ⟨t', ht', hvalid, ?_, ?_⟩
    · -- place `i` lies before the class of `a`, which is all that changes
      intro p hp
      have hbefore : i < t.bin.getD (t.deg.getD a 0) 0 := by
        refine (ht.binned.lt_start _ (ht.binned.key_le a han) i hi).mpr ?_
        rw [hvert i le_rfl, hv, htv, hta]
        exact hlt
      rw [hvert' p (hp.trans_lt hbefore), hvert p hp]
    · intro u
      have hu := congrFun hdeg' u
      simp only [Function.update_apply] at hu
      rw [hu]
      by_cases hua : u = a
      · subst hua
        rw [if_pos rfl, if_pos ⟨by simp, hlt⟩, hta]
      · rw [if_neg hua, hdeg]
        simp [hua]
  · refine ⟨t, lower_of_le ht han hvn (by rw [hta]; omega), ht, hvert, ?_⟩
    intro u
    rw [hdeg]
    by_cases hua : u = a
    · subst hua
      rw [if_neg fun hc => hlt hc.2, if_neg fun hc => hlt hc.2]
    · simp [hua]

end

/-- The state after `i` rounds, at level `level`. What is left has its degree among what is left,
but at least `level`; what is done has its core number. -/
structure Peeled (G : Graph) (md i level : ℕ) (s : Arrays) (coreness : List ℕ) : Prop where
  valid : s.Valid G.adj.length md
  length : coreness.length = G.adj.length
  left : ∀ u < G.adj.length, u ∉ (range i).image (s.vert.getD · 0) →
    s.deg.getD u 0 = max (G.neighbours u \ (range i).image (s.vert.getD · 0)).card level
  late : ∀ p < i, (G.neighbours (s.vert.getD p 0) \ (range p).image (s.vert.getD · 0)).card ≤
    s.deg.getD (s.vert.getD p 0) 0
  below : ∀ p < i, s.deg.getD (s.vert.getD p 0) 0 ≤ level
  support : ∃ S : Finset ℕ, (∀ u < G.adj.length, u ∉ (range i).image (s.vert.getD · 0) → u ∈ S) ∧
    ∀ u ∈ S, level ≤ (G.neighbours u ∩ S).card
  core : ∀ p < i, coreness.getD (s.vert.getD p 0) 0 = s.deg.getD (s.vert.getD p 0) 0 ∧
    IsGreatest {k | Supported G.neighbours k (s.vert.getD p 0)} (s.deg.getD (s.vert.getD p 0) 0)

section

variable {G : Graph} {md i level : ℕ} {s : Arrays} {coreness : List ℕ}
  (h : Peeled G md i level s coreness) (hi : i < G.adj.length)

include h hi

theorem Peeled.vert_left : s.vert.getD i 0 ∉ (range i).image (s.vert.getD · 0) := by
  intro hmem
  obtain ⟨p, hp, heq⟩ := mem_image.mp hmem
  have hp := mem_range.mp hp
  have h1 := h.valid.binned.place_item p (hp.trans hi)
  have h2 := h.valid.binned.place_item i hi
  rw [heq] at h1
  omega

theorem Peeled.vert_lt : s.vert.getD i 0 < G.adj.length :=
  h.valid.binned.item_lt i hi

theorem Peeled.level_le : level ≤ s.deg.getD (s.vert.getD i 0) 0 := by
  rw [h.left _ (h.vert_lt hi) (h.vert_left hi)]
  exact le_max_right _ _

omit hi in
theorem Peeled.deg_le {u : ℕ} (hu : u < G.adj.length)
    (hleft : u ∉ (range i).image (s.vert.getD · 0)) :
    s.deg.getD (s.vert.getD i 0) 0 ≤ s.deg.getD u 0 := by
  have hplace := h.valid.binned.place_lt u hu
  have hitem := h.valid.binned.item_place u hu
  have hge : i ≤ s.pos.getD u 0 := by
    by_contra hlt
    exact hleft (mem_image.mpr ⟨s.pos.getD u 0, mem_range.mpr (by omega), hitem⟩)
  have := h.valid.binned.sorted hge hplace
  simp only [hitem] at this
  exact this

/-- The degree of the vertex at place `i` is supported by what was left when the peeling reached
this level. -/
theorem Peeled.exists_support :
    ∃ S : Finset ℕ, (∀ u < G.adj.length, u ∉ (range i).image (s.vert.getD · 0) → u ∈ S) ∧
      ∀ u ∈ S, s.deg.getD (s.vert.getD i 0) 0 ≤ (G.neighbours u ∩ S).card := by
  rcases (h.level_le hi).eq_or_lt with heq | hlt
  · rw [← heq]
    exact h.support
  · refine ⟨range G.adj.length \ (range i).image (s.vert.getD · 0), ?_, ?_⟩
    · intro u hu hleft
      exact mem_sdiff.mpr ⟨mem_range.mpr hu, hleft⟩
    · intro u hu
      obtain ⟨hun, hleft⟩ := mem_sdiff.mp hu
      have hun := mem_range.mp hun
      have hinter : G.neighbours u ∩ (range G.adj.length \ (range i).image (s.vert.getD · 0)) =
          G.neighbours u \ (range i).image (s.vert.getD · 0) := by
        ext x
        simp only [mem_inter, mem_sdiff, mem_range]
        exact ⟨fun hx => ⟨hx.1, hx.2.2⟩, fun hx => ⟨hx.1, lt_of_mem_neighbours u hx.1, hx.2⟩⟩
      rw [hinter]
      have hle := h.deg_le hun hleft
      rw [h.left u hun hleft] at hle
      omega

theorem Peeled.isGreatest : IsGreatest {k | Supported G.neighbours k (s.vert.getD i 0)}
    (s.deg.getD (s.vert.getD i 0) 0) := by
  constructor
  · obtain ⟨S, hS, hdeg⟩ := h.exists_support hi
    exact ⟨S, hS _ (h.vert_lt hi) (h.vert_left hi), hdeg⟩
  · intro k hk
    refine Supported.le (s.vert.getD · 0) (fun p => s.deg.getD (s.vert.getD p 0) 0) ?_ ?_ hk
    · intro p hp
      rcases hp.eq_or_lt with rfl | hp
      · rw [h.left _ (h.vert_lt hi) (h.vert_left hi)]
        exact le_max_left _ _
      · exact h.late p hp
    · intro p hp
      exact h.valid.binned.sorted hp hi

theorem Peeled.lowered (hsymm : G.Symmetric) {u : ℕ} (hu : u < G.adj.length)
    (hleft : u ∉ insert (s.vert.getD i 0) ((range i).image (s.vert.getD · 0))) :
    (if u ∈ G.nbr.getD (s.vert.getD i 0) [] ∧ s.deg.getD (s.vert.getD i 0) 0 < s.deg.getD u 0
      then s.deg.getD u 0 - 1 else s.deg.getD u 0) =
      max (G.neighbours u \ insert (s.vert.getD i 0) ((range i).image (s.vert.getD · 0))).card
        (s.deg.getD (s.vert.getD i 0) 0) := by
  have hleft' : u ∉ (range i).image (s.vert.getD · 0) := fun hmem => hleft (mem_insert_of_mem hmem)
  have hmem : u ∈ G.nbr.getD (s.vert.getD i 0) [] ↔ s.vert.getD i 0 ∈ G.neighbours u := by
    rw [← neighbours_symm hsymm hu (h.vert_lt hi), Graph.neighbours, List.mem_toFinset]
  have hcard : (G.neighbours u \
      insert (s.vert.getD i 0) ((range i).image (s.vert.getD · 0))).card =
        (G.neighbours u \ (range i).image (s.vert.getD · 0)).card -
          if s.vert.getD i 0 ∈ G.neighbours u then 1 else 0 := by
    rw [sdiff_insert]
    split_ifs with hv
    · exact card_erase_of_mem (mem_sdiff.mpr ⟨hv, h.vert_left hi⟩)
    · rw [erase_eq_of_notMem fun hc => hv (mem_sdiff.mp hc).1, Nat.sub_zero]
  have hdeg := h.left u hu hleft'
  have hk := h.deg_le hu hleft'
  have hl := h.level_le hi
  rw [hcard]
  by_cases hv : s.vert.getD i 0 ∈ G.neighbours u
  · simp only [hmem, hv, true_and]
    split_ifs <;> omega
  · simp only [hmem, hv, false_and, if_false]
    omega

/-- One round of the peeling succeeds and goes up to the degree of the vertex it peels. -/
theorem Peeled.step (hsymm : G.Symmetric) : ∃ r, peel G.nbr (s, coreness) i = some r ∧
      Peeled G md (i + 1) (s.deg.getD (s.vert.getD i 0) 0) r.1 r.2 := by
  have hv := h.vert_lt hi
  have hvi : i < s.vert.length := h.valid.vert_length.symm ▸ hi
  have hvd : s.vert.getD i 0 < s.deg.length := h.valid.deg_length.symm ▸ hv
  have hvc : s.vert.getD i 0 < coreness.length := h.length.symm ▸ hv
  have hvn : s.vert.getD i 0 < G.nbr.length := by simpa [Graph.nbr] using hv
  have hrow : ∀ u ∈ G.nbr.getD (s.vert.getD i 0) [], u < G.adj.length := fun u hu =>
    lt_of_mem_neighbours (s.vert.getD i 0) (mem_toFinset.mpr hu)
  have hnodup : (G.nbr.getD (s.vert.getD i 0) []).Nodup := by
    rw [getD_nbr G hv]
    exact nodup_nbrOf _ _
  obtain ⟨t, hrun, ht, hvert, hdeg⟩ := lowerAll_eq h.valid hi hrow hnodup
  have himage : ∀ j ≤ i + 1, (range j).image (t.vert.getD · 0) =
      (range j).image (s.vert.getD · 0) := by
    intro j hj
    refine image_congr fun p hp => hvert p ?_
    have := mem_range.mp (mem_coe.mp hp)
    omega
  have hdone : (range (i + 1)).image (t.vert.getD · 0) =
      insert (s.vert.getD i 0) ((range i).image (s.vert.getD · 0)) := by
    rw [himage _ le_rfl, range_add_one, image_insert]
  have hkeep : ∀ p ≤ i, t.deg.getD (s.vert.getD p 0) 0 = s.deg.getD (s.vert.getD p 0) 0 := by
    intro p hp
    have := h.valid.binned.sorted hp hi
    rw [hdeg, if_neg fun hc => absurd hc.2 (not_lt.mpr this)]
  obtain ⟨S, hS, hSdeg⟩ := h.exists_support hi
  refine ⟨(t, coreness.set (s.vert.getD i 0) (s.deg.getD (s.vert.getD i 0) 0)), ?_, ht,
    by simpa using h.length, ?_, ?_, ?_, ⟨S, ?_, hSdeg⟩, ?_⟩
  · simp only [peel, getElem?_eq_getD hvi 0, getElem?_eq_getD hvd 0, setChecked_eq hvc,
      getElem?_eq_getD hvn [], hrun, bind_eq_bind, bind_some]
    rfl
  · intro u hu hleft
    rw [hdone] at hleft ⊢
    rw [hdeg]
    exact h.lowered hi hsymm hu hleft
  · intro p hp
    rw [hvert p (by omega), hkeep p (by omega), himage p (by omega)]
    rcases (Nat.lt_succ_iff.mp hp).eq_or_lt with rfl | hp
    · rw [h.left _ hv (h.vert_left hi)]
      exact le_max_left _ _
    · exact h.late p hp
  · intro p hp
    rw [hvert p (by omega), hkeep p (by omega)]
    exact h.valid.binned.sorted (Nat.lt_succ_iff.mp hp) hi
  · intro u hu hleft
    rw [hdone] at hleft
    exact hS u hu fun hmem => hleft (mem_insert_of_mem hmem)
  · intro p hp
    rw [hvert p (by omega), hkeep p (by omega)]
    have hset := congrFun (getD_set hvc (s.deg.getD (s.vert.getD i 0) 0) 0) (s.vert.getD p 0)
    simp only [Function.update_apply] at hset
    rcases (Nat.lt_succ_iff.mp hp).eq_or_lt with rfl | hp
    · rw [if_pos rfl] at hset
      exact ⟨hset, h.isGreatest hi⟩
    · have hne : s.vert.getD p 0 ≠ s.vert.getD i 0 := fun heq =>
        h.vert_left hi (mem_image.mpr ⟨p, mem_range.mpr hp, heq⟩)
      rw [if_neg hne] at hset
      exact ⟨hset.trans (h.core p hp).1, (h.core p hp).2⟩

end

theorem peeled_zero {G : Graph} {s : Arrays} {md : ℕ} {coreness : List ℕ}
    (hvalid : s.Valid G.adj.length md) (hdeg : s.deg = G.nbr.map List.length)
    (hlen : coreness.length = G.adj.length) : Peeled G md 0 0 s coreness := by
  refine ⟨hvalid, hlen, ?_, by simp, by simp, ⟨range G.adj.length, by simp, by simp⟩, by simp⟩
  intro u hu _
  rw [hdeg, ← card_neighbours G hu]
  simp

def Graph.simple (G : Graph) : SimpleGraph (Fin G.adj.length) :=
  SimpleGraph.fromRel fun u v => v.val ∈ G.adj.getD u []

theorem simple_adj {G : Graph} (hsymm : G.Symmetric) (u v : Fin G.adj.length) :
    G.simple.Adj u v ↔ v.val ∈ G.neighbours u := by
  rw [Graph.simple, SimpleGraph.fromRel_adj, mem_neighbours u.isLt, ne_eq, Fin.ext_iff]
  constructor
  · rintro ⟨hne, hmem | hmem⟩
    · exact ⟨fun heq => hne heq.symm, hmem⟩
    · exact ⟨fun heq => hne heq.symm, hsymm v u hmem⟩
  · rintro ⟨hne, hmem⟩
    exact ⟨fun heq => hne heq.symm, .inl hmem⟩

theorem runKCore_peeled {G : Graph} (hsymm : G.Symmetric) (coreness : List ℕ)
    (hlen : coreness.length = G.adj.length) : ∃ result, runKCore G coreness = some result ∧
      ∃ md level s, Peeled G md G.adj.length level s result := by
  have hnbr : (G.nbr.map length).length = G.adj.length := by simp [Graph.nbr]
  obtain ⟨s, hsort, hdeg, hvalid⟩ := bucketSort_valid (G.nbr.map length)
  rw [hnbr] at hvalid
  obtain ⟨r, hrun, level, hpeeled⟩ := foldlM_invariant
    (s := (s, coreness))
    (fun pre r => ∃ level, Peeled G _ pre.length level r.1 r.2)
    ⟨0, peeled_zero hvalid hdeg hlen⟩ (by
      rintro pre i post ⟨s, coreness⟩ hl ⟨level, hpeeled⟩
      obtain ⟨rfl, hi⟩ := eq_length_of_range hl
      obtain ⟨r, hr, hnext⟩ := hpeeled.step hi hsymm
      exact ⟨r, hr, _, by simpa using hnext⟩)
  rw [length_range] at hpeeled
  refine ⟨r.2, ?_, _, level, r.1, hpeeled⟩
  simp only [runKCore, hsort, hrun, bind_eq_bind, bind_some]
  rfl

/-- `RunKCore` accesses its arrays in range and leaves the core number of every vertex: the largest
`k` such that the vertex lies in a subgraph of minimum degree at least `k`. -/
theorem runKCore_coreNumber {G : Graph} (hsymm : G.Symmetric) (coreness : List ℕ)
    (hlen : coreness.length = G.adj.length) :
    ∃ result, runKCore G coreness = some result ∧ result.length = G.adj.length ∧
      ∀ v : Fin G.adj.length,
        IsGreatest {k | InCore G.simple k v} (result.getD v 0) := by
  obtain ⟨result, hrun, md, level, s, hpeeled⟩ := runKCore_peeled hsymm coreness hlen
  refine ⟨result, hrun, hpeeled.length, ?_⟩
  intro v
  have hplace := hpeeled.valid.binned.place_lt v v.isLt
  have hitem := hpeeled.valid.binned.item_place v v.isLt
  obtain ⟨hvalue, hgreatest⟩ := hpeeled.core _ hplace
  rw [hitem] at hvalue hgreatest
  rw [hvalue]
  have hsame : {k | InCore G.simple k v} = {k | Supported G.neighbours k v} := by
    ext k
    exact inCore_iff_supported (fun u _ hx => lt_of_mem_neighbours u hx) (simple_adj hsymm) k v
  rw [hsame]
  exact hgreatest

/-- A triangle with a doubled edge, a pendant vertex and a vertex with only a self-loop. -/
def pennant : Graph where
  adj := [[1, 2, 1], [0, 0, 2], [0, 1, 3], [2], [4]]
  inRange := by decide

theorem symmetric_pennant : pennant.Symmetric := by
  intro u v hv
  by_cases hu : u < pennant.adj.length
  · have hall : ∀ u < pennant.adj.length, ∀ v ∈ pennant.adj.getD u [],
        u ∈ pennant.adj.getD v [] := by decide
    exact hall u hu v hv
  · rw [getD_eq_default _ _ (Nat.le_of_not_lt hu)] at hv
    cases hv

theorem runKCore_coreNumber_pennant :
    pennant.Symmetric ∧ runKCore pennant [0, 0, 0, 0, 0] = some [2, 2, 2, 1, 0] ∧
      ∀ v : Fin pennant.adj.length,
        IsGreatest {k | InCore pennant.simple k v} ([2, 2, 2, 1, 0].getD v 0) := by
  have hrun : runKCore pennant [0, 0, 0, 0, 0] = some [2, 2, 2, 1, 0] := by decide +kernel
  obtain ⟨result, hresult, -, hcore⟩ :=
    runKCore_coreNumber symmetric_pennant [0, 0, 0, 0, 0] rfl
  rw [hrun, some.injEq] at hresult
  exact ⟨symmetric_pennant, hrun, hresult ▸ hcore⟩

end Neug.KCore
