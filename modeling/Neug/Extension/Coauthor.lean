import Neug.Extension.LouvainPartition

/-! `BuildCountryCoauthorProjection` of both computers: publications are folded into pairs of
countries, and the pairs into a weighted graph. Weights are exact integers. -/
namespace Neug.Extension

open Neug.Lib List Option

/-- What the projection reads of a graph with one triplet from Publication to Organization, whose
edges have valid ends: the id of its edge label, the ids given and which of them are valid, two
columns, and the outgoing edges of a publication. -/
structure Publications where
  edgeLabel : ℕ
  numPubs : ℕ
  numOrgs : ℕ
  pubValid : ℕ → Bool
  orgValid : ℕ → Bool
  year : ℕ → ℤ
  countryCode : ℕ → String
  authors : ℕ → List ℕ
  ends : ∀ p < numPubs, pubValid p = true → ∀ o ∈ authors p, o < numOrgs ∧ orgValid o = true

/-- `CoauthorConfig`, without the threshold that only the k-core has. -/
structure CoauthorConfig where
  yearMin : ℤ
  yearMax : ℤ
  maxCoauthors : ℤ

/-- The order in which the loop over `agg[a]` meets the entries of the map. -/
structure PairOrder where
  order : ℕ → List (ℕ × ℕ) → List (ℕ × ℕ)
  perm : ∀ a m, (order a m).Perm m

structure Projection where
  numVertex : ℕ := 0
  numEdge : ℕ := 0
  globalToLocal : List (ℕ × ℕ) := []
  aggregateKeys : List String := []
  adj : List (List (ℕ × ℕ)) := []

def unique : List ℕ → List ℕ
  | a :: b :: l => if a = b then unique (b :: l) else a :: unique (b :: l)
  | [a] => [a]
  | [] => []

/-- The pairs that the two loops over `cvec` make. -/
def pairs : List ℕ → List (ℕ × ℕ)
  | [] => []
  | a :: l => (l.map fun b => (a, b)) ++ pairs l

namespace Publications

/-- One round of the loop over the organizations: `cc_list`, which lists the keys of `cc_to_idx` in
the order of their numbers, and `org_to_cidx`. -/
def mapOrg (D : Publications) (s : List String × List (Option ℕ)) (i : ℕ) :
    List String × List (Option ℕ) :=
  if D.orgValid i then
    if D.countryCode i = "" then s
    else
      let ccList := if D.countryCode i ∈ s.1 then s.1 else s.1 ++ [D.countryCode i]
      (ccList, s.2.set i (some (ccList.idxOf (D.countryCode i))))
  else s

def mapOrgs (D : Publications) : List String × List (Option ℕ) :=
  (List.range D.numOrgs).foldl D.mapOrg ([], List.replicate D.numOrgs none)

/-- One round of the loop over the edges of a publication: `distinct_orgs` and `cvec`. -/
def collect (D : Publications) (orgToCidx : List (Option ℕ)) (s : List ℕ × List ℕ) (org : ℕ) :
    List ℕ × List ℕ :=
  if D.numOrgs ≤ org then s
  else if org ∈ s.1 then s
  else (org :: s.1, s.2 ++ (orgToCidx.getD org none).toList)

def pubPairs (D : Publications) (cfg : CoauthorConfig) (orgToCidx : List (Option ℕ)) (p : ℕ) :
    List (ℕ × ℕ) :=
  if !D.pubValid p then []
  else if cfg.yearMin ≤ cfg.yearMax ∧ (D.year p < cfg.yearMin ∨ cfg.yearMax < D.year p) then []
  else
    let s := (D.authors p).foldl (D.collect orgToCidx) ([], [])
    if 0 < cfg.maxCoauthors ∧ cfg.maxCoauthors < s.1.length then []
    else if s.2 = [] then []
    else
      let cvec := unique s.2.mergeSort
      if cvec.length < 2 then [] else pairs cvec

/-- `agg`: for every country the later ones it shares publications with. -/
def aggregate (D : Publications) (cfg : CoauthorConfig) (orgToCidx : List (Option ℕ))
    (numCountries : ℕ) : List (List (ℕ × ℕ)) :=
  ((List.range D.numPubs).flatMap (D.pubPairs cfg orgToCidx)).foldl
    (fun agg e => agg.modify e.1 (Louvain.bump e.2 1)) (List.replicate numCountries [])

def pushes (T : PairOrder) (keep : ℕ → Bool) (agg : List (List (ℕ × ℕ))) :
    List (ℕ × (ℕ × ℕ)) :=
  (List.range agg.length).flatMap fun a =>
    ((T.order a (agg.getD a [])).filter fun e => keep e.2).flatMap fun e =>
      [(a, e), (e.1, (a, e.2))]

/-- The projection, with the test of the last loop as a parameter. Label 255 stands for no edge
found. -/
def project (T : PairOrder) (keep : ℕ → Bool) (D : Publications) (cfg : CoauthorConfig) :
    Option Projection :=
  if D.edgeLabel = 255 then some {}
  else if D.mapOrgs.1.length = 0 then some {}
  else do
    let n := D.mapOrgs.1.length
    let entries := pushes T keep (D.aggregate cfg D.mapOrgs.2 n)
    let adj ← entries.foldlM pushNext (List.replicate n [])
    pure ⟨n, entries.length, (List.range n).map fun i => (255, i), D.mapOrgs.1, adj⟩

end Publications

def louvainCoauthorProjection (T : PairOrder) (D : Publications) (cfg : CoauthorConfig) :
    Option Projection :=
  D.project T (fun _ => true) cfg

def kcoreCoauthorProjection (T : PairOrder) (D : Publications) (cfg : CoauthorConfig)
    (minEdgeWeight : ℤ) : Option Projection :=
  D.project T (fun w => !decide ((w : ℤ) < minEdgeWeight)) cfg

namespace Publications

/-- A valid publication in the year window with at most `maxCoauthors` distinct organizations. -/
def Counted (D : Publications) (cfg : CoauthorConfig) (p : ℕ) : Prop :=
  D.pubValid p = true ∧
    (cfg.yearMax < cfg.yearMin ∨ cfg.yearMin ≤ D.year p ∧ D.year p ≤ cfg.yearMax) ∧
    (cfg.maxCoauthors ≤ 0 ∨ ((D.authors p).toFinset.card : ℤ) ≤ cfg.maxCoauthors)

instance (D : Publications) (cfg : CoauthorConfig) (p : ℕ) : Decidable (D.Counted cfg p) :=
  inferInstanceAs (Decidable (_ ∧ _ ∧ _))

def shared (D : Publications) (cfg : CoauthorConfig) (a b : String) : ℕ :=
  (List.range D.numPubs).countP fun p => D.Counted cfg p ∧
    (∃ o ∈ D.authors p, D.countryCode o = a) ∧ ∃ o ∈ D.authors p, D.countryCode o = b

def HasCountry (D : Publications) (c : String) : Prop :=
  c ≠ "" ∧ ∃ o < D.numOrgs, D.orgValid o = true ∧ D.countryCode o = c

end Publications

/-- One node for every country of a valid organization; two nodes are joined, by one entry in either
row, if the number of publications they share is positive and `keep` lets it pass, which is then the
weight of both entries. -/
structure Projection.Counts (b : Projection) (D : Publications) (cfg : CoauthorConfig)
    (keep : ℕ → Bool) : Prop where
  numVertex : b.numVertex = b.aggregateKeys.length
  keys_nodup : b.aggregateKeys.Nodup
  keys : ∀ c, c ∈ b.aggregateKeys ↔ D.HasCountry c
  length : b.adj.length = b.aggregateKeys.length
  inRange : ∀ i, ∀ e ∈ b.adj.getD i [], e.1 < b.aggregateKeys.length
  noSelf : ∀ i, ∀ e ∈ b.adj.getD i [], e.1 ≠ i
  entries : ∀ i j x y, b.aggregateKeys[i]? = some x → b.aggregateKeys[j]? = some y → i ≠ j →
    (b.adj.getD i []).filter (fun e => e.1 = j) =
      if 0 < D.shared cfg x y ∧ keep (D.shared cfg x y) = true then [(j, D.shared cfg x y)]
      else []

section

variable {l : List ℕ}

theorem mem_unique {x : ℕ} : x ∈ unique l ↔ x ∈ l := by
  fun_induction unique l with
  | case1 b l ih => rw [ih, mem_cons, mem_cons, mem_cons]; tauto
  | case2 a b l hab ih => rw [mem_cons, ih, ← mem_cons]
  | case3 a => rfl
  | case4 => rfl

theorem pairwise_unique (h : l.Pairwise (· ≤ ·)) : (unique l).Pairwise (· < ·) := by
  fun_induction unique l with
  | case1 b l ih => exact ih h.of_cons
  | case2 a b l hab ih =>
    refine pairwise_cons.mpr ⟨fun x hx => ?_, ih h.of_cons⟩
    rw [mem_unique] at hx
    have hle : a ≤ b := (pairwise_cons.mp h).1 b mem_cons_self
    have hbx : b ≤ x := by
      rcases mem_cons.mp hx with rfl | hx
      · exact le_rfl
      · exact (pairwise_cons.mp h.of_cons).1 x hx
    omega
  | case3 a => exact pairwise_singleton _ _
  | case4 => exact List.Pairwise.nil

theorem mem_pairs (h : l.Pairwise (· < ·)) {a b : ℕ} :
    (a, b) ∈ pairs l ↔ a < b ∧ a ∈ l ∧ b ∈ l := by
  induction l with
  | nil => simp [pairs]
  | cons c l ih =>
    obtain ⟨hc, hl⟩ := pairwise_cons.mp h
    rw [pairs, mem_append, ih hl, List.mem_map]
    constructor
    · rintro (⟨d, hd, heq⟩ | ⟨hlt, ha, hb⟩)
      · obtain ⟨rfl, rfl⟩ := Prod.mk.inj heq
        exact ⟨hc d hd, mem_cons_self, mem_cons_of_mem _ hd⟩
      · exact ⟨hlt, mem_cons_of_mem _ ha, mem_cons_of_mem _ hb⟩
    · rintro ⟨hlt, ha, hb⟩
      rcases mem_cons.mp ha with rfl | hal
      · rcases mem_cons.mp hb with rfl | hbl
        · exact absurd hlt (lt_irrefl _)
        · exact .inl ⟨b, hbl, rfl⟩
      · rcases mem_cons.mp hb with rfl | hbl
        · exact absurd (hc a hal) hlt.not_gt
        · exact .inr ⟨hlt, hal, hbl⟩

theorem nodup_pairs (h : l.Pairwise (· < ·)) : (pairs l).Nodup := by
  induction l with
  | nil => exact nodup_nil
  | cons c l ih =>
    obtain ⟨hc, hl⟩ := pairwise_cons.mp h
    have hnodup : l.Nodup := hl.imp fun hab => hab.ne
    refine (hnodup.map fun a b hab => (Prod.mk.inj hab).2).append (ih hl) ?_
    rintro ⟨a, b⟩ hmem hmem'
    obtain ⟨d, -, heq⟩ := mem_map.mp hmem
    cases heq
    exact absurd (hc _ ((mem_pairs hl).mp hmem').2.1) (lt_irrefl _)

end

namespace Publications

variable {D : Publications} {cfg : CoauthorConfig}

def cidx (D : Publications) (o : ℕ) : Option ℕ :=
  if D.orgValid o = true ∧ D.countryCode o ≠ "" then some (D.mapOrgs.1.idxOf (D.countryCode o))
  else none

structure Mapped (D : Publications) (k : ℕ) (s : List String × List (Option ℕ)) : Prop where
  nodup : s.1.Nodup
  mem : ∀ c, c ∈ s.1 ↔ c ≠ "" ∧ ∃ o < k, D.orgValid o = true ∧ D.countryCode o = c
  length : s.2.length = D.numOrgs
  cidx : ∀ o < D.numOrgs, s.2.getD o none =
    if o < k ∧ D.orgValid o = true ∧ D.countryCode o ≠ "" then
      some (s.1.idxOf (D.countryCode o)) else none

theorem Mapped.step {k : ℕ} {s : List String × List (Option ℕ)} (h : D.Mapped k s)
    (hk : k < D.numOrgs) : D.Mapped (k + 1) (D.mapOrg s k) := by
  have hskip : ¬ (D.orgValid k = true ∧ D.countryCode k ≠ "") → D.Mapped (k + 1) s := by
    intro hno
    refine ⟨h.nodup, fun c => (h.mem c).trans (and_congr_right fun hc => ?_), h.length,
      fun o ho => ?_⟩
    · constructor
      · rintro ⟨o, ho, hvalid, hcc⟩
        exact ⟨o, by omega, hvalid, hcc⟩
      · rintro ⟨o, ho, hvalid, hcc⟩
        have hne : o ≠ k := by
          rintro rfl
          exact hno ⟨hvalid, hcc ▸ hc⟩
        exact ⟨o, by omega, hvalid, hcc⟩
    · rw [h.cidx o ho]
      refine if_congr ⟨fun hc => ⟨by omega, hc.2⟩, fun hc => ⟨?_, hc.2⟩⟩ rfl rfl
      have hne : o ≠ k := by
        rintro rfl
        exact hno hc.2
      omega
  rw [mapOrg]
  by_cases hvalid : D.orgValid k = true
  swap
  · rw [if_neg hvalid]
    exact hskip fun hc => hvalid hc.1
  by_cases hcc : D.countryCode k = ""
  · rw [if_pos hvalid, if_pos hcc]
    exact hskip fun hc => hc.2 hcc
  rw [if_pos hvalid, if_neg hcc]
  have hlist : ∃ ccList, ccList = (if D.countryCode k ∈ s.1 then s.1
      else s.1 ++ [D.countryCode k]) ∧ ccList.Nodup ∧
      (∀ c, c ∈ ccList ↔ c ∈ s.1 ∨ c = D.countryCode k) ∧
      ∀ c ∈ s.1, ccList.idxOf c = s.1.idxOf c := by
    refine ⟨_, rfl, ?_, ?_, ?_⟩
    · split_ifs with hmem
      · exact h.nodup
      · exact h.nodup.append (nodup_singleton _) (disjoint_singleton.mpr hmem)
    · intro c
      split_ifs with hmem
      · constructor
        · exact .inl
        · rintro (hc | rfl)
          · exact hc
          · exact hmem
      · simp
    · intro c hc
      split_ifs
      · rfl
      · exact idxOf_append_of_mem hc
  obtain ⟨ccList, hccList, hnodup, hmem, hold⟩ := hlist
  rw [← hccList]
  refine ⟨hnodup, fun c => ?_, by rw [length_set, h.length], fun o ho => ?_⟩
  · rw [hmem, h.mem]
    constructor
    · rintro (⟨hc, o, ho, hv, ho'⟩ | rfl)
      · exact ⟨hc, o, by omega, hv, ho'⟩
      · exact ⟨hcc, k, by omega, hvalid, rfl⟩
    · rintro ⟨hc, o, ho, hv, rfl⟩
      by_cases hok : o = k
      · exact .inr (by rw [hok])
      · exact .inl ⟨hc, o, by omega, hv, rfl⟩
  · by_cases hok : o = k
    · subst hok
      rw [getD_eq_getElem?_getD, getElem?_set_self (by rw [h.length]; exact ho),
        getD_some, if_pos ⟨by omega, hvalid, hcc⟩]
    · rw [getD_eq_getElem?_getD, getElem?_set_ne (Ne.symm hok),
        ← getD_eq_getElem?_getD, h.cidx o ho]
      by_cases hc : o < k ∧ D.orgValid o = true ∧ D.countryCode o ≠ ""
      · rw [if_pos hc, if_pos ⟨by omega, hc.2⟩, hold]
        exact (h.mem _).mpr ⟨hc.2.2, o, hc.1, hc.2.1, rfl⟩
      · rw [if_neg hc, if_neg fun hc' => hc ⟨by omega, hc'.2⟩]

theorem mapped_mapOrgs (D : Publications) : D.Mapped D.numOrgs D.mapOrgs := by
  have hloop : ∀ k, k ≤ D.numOrgs →
      D.Mapped k ((range k).foldl D.mapOrg ([], replicate D.numOrgs none)) := by
    intro k
    induction k with
    | zero =>
      intro _
      refine ⟨nodup_nil, by simp, by simp, fun o ho => ?_⟩
      rw [range_zero, foldl_nil, getD_replicate _ ho, if_neg (by simp)]
    | succ k ih =>
      intro hk
      rw [range_succ, foldl_append]
      exact (ih (by omega)).step (by omega)
  exact hloop D.numOrgs le_rfl

theorem mem_countries {c : String} : c ∈ D.mapOrgs.1 ↔ D.HasCountry c :=
  (mapped_mapOrgs D).mem c

theorem getD_orgToCidx {o : ℕ} (ho : o < D.numOrgs) : D.mapOrgs.2.getD o none = D.cidx o := by
  rw [(mapped_mapOrgs D).cidx o ho, cidx]
  simp [ho]

theorem cidx_eq_some_iff {o i : ℕ} {c : String} (ho : D.orgValid o = true)
    (hc : D.mapOrgs.1[i]? = some c) : D.cidx o = some i ↔ D.countryCode o = c := by
  have hmem := mem_of_getElem? hc
  have hne : c ≠ "" := (mem_countries.mp hmem).1
  have hi : i < D.mapOrgs.1.length := (List.getElem?_eq_some_iff.mp hc).1
  have hget : D.mapOrgs.1[i] = c := (List.getElem?_eq_some_iff.mp hc).2
  rw [cidx]
  constructor
  · intro h
    split_ifs at h with hcc
    have hidx : D.mapOrgs.1.idxOf (D.countryCode o) = i := some.inj h
    have hlt : D.mapOrgs.1.idxOf (D.countryCode o) < D.mapOrgs.1.length := by rwa [hidx]
    have hcode := getElem_idxOf hlt
    rw [← hcode, ← hget]
    congr 1
  · rintro rfl
    rw [if_pos ⟨ho, hne⟩, ← hget, (mapped_mapOrgs D).nodup.idxOf_getElem i hi]

/-- The organizations and the countries that the loop over the edges of a publication collects. -/
theorem collect_spec {l : List ℕ} (hl : ∀ o ∈ l, o < D.numOrgs) :
    (l.foldl (D.collect D.mapOrgs.2) ([], [])).1.Nodup ∧
      (∀ o, o ∈ (l.foldl (D.collect D.mapOrgs.2) ([], [])).1 ↔ o ∈ l) ∧
      ∀ c, c ∈ (l.foldl (D.collect D.mapOrgs.2) ([], [])).2 ↔ ∃ o ∈ l, D.cidx o = some c := by
  induction l using reverseRecOn with
  | nil => simp
  | append_singleton l o ih =>
    obtain ⟨hnodup, hmem, hcidx⟩ := ih fun x hx => hl x (mem_append_left _ hx)
    have ho : o < D.numOrgs := hl o (by simp)
    rw [foldl_append, foldl_cons, foldl_nil]
    rw [collect, if_neg (by omega), getD_orgToCidx ho]
    split_ifs with hold
    · have hol : o ∈ l := (hmem o).mp hold
      refine ⟨hnodup, fun x => ?_, fun c => ?_⟩
      · rw [hmem, mem_append, mem_singleton]
        exact ⟨.inl, fun h => h.elim id fun hx => hx ▸ hol⟩
      · rw [hcidx]
        constructor
        · rintro ⟨x, hx, hc⟩
          exact ⟨x, mem_append_left _ hx, hc⟩
        · rintro ⟨x, hx, hc⟩
          rcases mem_append.mp hx with hx | hx
          · exact ⟨x, hx, hc⟩
          · rw [mem_singleton.mp hx] at hc
            exact ⟨o, hol, hc⟩
    · refine ⟨nodup_cons.mpr ⟨hold, hnodup⟩, fun x => ?_, fun c => ?_⟩
      · rw [mem_cons, hmem, mem_append, mem_singleton, or_comm]
      · rw [mem_append, hcidx, mem_toList]
        constructor
        · rintro (⟨x, hx, hc⟩ | hc)
          · exact ⟨x, mem_append_left _ hx, hc⟩
          · exact ⟨o, by simp, hc⟩
        · rintro ⟨x, hx, hc⟩
          rcases mem_append.mp hx with hx | hx
          · exact .inl ⟨x, hx, hc⟩
          · exact .inr (mem_singleton.mp hx ▸ hc)

theorem pairs_eq_nil {l : List ℕ} (h : l.length < 2) : pairs l = [] := by
  match l with
  | [] => rfl
  | [a] => rfl
  | a :: b :: l => simp at h

theorem pubPairs_eq {p : ℕ} (hp : p < D.numPubs) : D.pubPairs cfg D.mapOrgs.2 p =
    if D.Counted cfg p then
      pairs (unique ((D.authors p).foldl (D.collect D.mapOrgs.2) ([], [])).2.mergeSort)
    else [] := by
  rw [pubPairs]
  by_cases hvalid : D.pubValid p = true
  swap
  · rw [if_pos (by simpa using hvalid), if_neg fun h => hvalid h.1]
  obtain ⟨hnodup, hmem, -⟩ := collect_spec fun o ho => (D.ends p hp hvalid o ho).1
  generalize (D.authors p).foldl (D.collect D.mapOrgs.2) ([], []) = s at hnodup hmem ⊢
  have hcard : (D.authors p).toFinset.card = s.1.length := by
    rw [← toFinset_card_of_nodup hnodup]
    congr 1
    ext o
    rw [List.mem_toFinset, List.mem_toFinset, hmem]
  have hrest : (if s.2 = [] then [] else
      if (unique s.2.mergeSort).length < 2 then [] else pairs (unique s.2.mergeSort)) =
        pairs (unique s.2.mergeSort) := by
    split_ifs with hnil hshort
    · rw [hnil, mergeSort_nil]
      rfl
    · exact (pairs_eq_nil hshort).symm
    · rfl
  simp only [hvalid, Bool.not_true, Bool.false_eq_true, if_false, hrest]
  by_cases hyear : cfg.yearMin ≤ cfg.yearMax ∧
      (D.year p < cfg.yearMin ∨ cfg.yearMax < D.year p)
  · rw [if_pos hyear, if_neg]
    rintro ⟨-, hwindow, -⟩
    omega
  · rw [if_neg hyear]
    by_cases hsize : 0 < cfg.maxCoauthors ∧ cfg.maxCoauthors < s.1.length
    · rw [if_pos hsize, if_neg]
      rintro ⟨-, -, hlimit⟩
      omega
    · rw [if_neg hsize, if_pos]
      exact ⟨hvalid, by omega, by omega⟩

theorem pairwise_countries (s : List ℕ) : (unique s.mergeSort).Pairwise (· < ·) :=
  pairwise_unique (pairwise_mergeSort' (· ≤ ·) s)

theorem nodup_pubPairs {p : ℕ} (hp : p < D.numPubs) : (D.pubPairs cfg D.mapOrgs.2 p).Nodup := by
  rw [pubPairs_eq hp]
  split_ifs
  · exact nodup_pairs (pairwise_countries _)
  · exact nodup_nil

theorem mem_pubPairs {p i j : ℕ} (hp : p < D.numPubs) :
    (i, j) ∈ D.pubPairs cfg D.mapOrgs.2 p ↔ i < j ∧ D.Counted cfg p ∧
      (∃ o ∈ D.authors p, D.cidx o = some i) ∧ ∃ o ∈ D.authors p, D.cidx o = some j := by
  rw [pubPairs_eq hp]
  split_ifs with hcounted
  · obtain ⟨-, -, hcidx⟩ := collect_spec fun o ho => (D.ends p hp hcounted.1 o ho).1
    rw [mem_pairs (pairwise_countries _), mem_unique, mem_unique, mem_mergeSort,
      mem_mergeSort, hcidx, hcidx]
    simp [hcounted]
  · simp [hcounted]

/-- What all publications together add for a pair is the number of those that the two countries
share. -/
theorem count_pubPairs {i j : ℕ} {x y : String} (hx : D.mapOrgs.1[i]? = some x)
    (hy : D.mapOrgs.1[j]? = some y) (hij : i < j) :
    ((range D.numPubs).flatMap (D.pubPairs cfg D.mapOrgs.2)).count (i, j) = D.shared cfg x y := by
  have hcount : ∀ l : List ℕ, (∀ p ∈ l, p < D.numPubs) →
      (l.flatMap (D.pubPairs cfg D.mapOrgs.2)).count (i, j) =
        l.countP fun p => decide ((i, j) ∈ D.pubPairs cfg D.mapOrgs.2 p) := by
    intro l hl
    induction l with
    | nil => rfl
    | cons p l ih =>
      rw [flatMap_cons, count_append, ih fun q hq => hl q (mem_cons_of_mem _ hq),
        countP_cons, (nodup_pubPairs (hl p mem_cons_self)).count]
      simp only [decide_eq_true_eq]
      omega
  rw [hcount _ fun p hp => mem_range.mp hp]
  refine countP_congr fun p hp => ?_
  have hp := mem_range.mp hp
  simp only [decide_eq_true_eq, mem_pubPairs hp, hij, true_and]
  refine and_congr_right fun hcounted => ?_
  have hvalid : ∀ o ∈ D.authors p, D.orgValid o = true := fun o ho =>
    (D.ends p hp hcounted.1 o ho).2
  refine and_congr ?_ ?_
  · exact exists_congr fun o => and_congr_right fun ho => cidx_eq_some_iff (hvalid o ho) hx
  · exact exists_congr fun o => and_congr_right fun ho => cidx_eq_some_iff (hvalid o ho) hy

theorem lt_of_mem_pubPairs {e : ℕ × ℕ}
    (h : e ∈ (range D.numPubs).flatMap (D.pubPairs cfg D.mapOrgs.2)) :
    e.1 < e.2 ∧ e.2 < D.mapOrgs.1.length := by
  obtain ⟨p, hp, he⟩ := mem_flatMap.mp h
  have hp := mem_range.mp hp
  obtain ⟨hlt, hcounted, -, o, ho, hcidx⟩ := (mem_pubPairs hp).mp he
  obtain ⟨hlto, hvalid⟩ := D.ends p hp hcounted.1 o ho
  refine ⟨hlt, ?_⟩
  rw [cidx] at hcidx
  split_ifs at hcidx with hc
  rw [← some.inj hcidx]
  exact idxOf_lt_length_iff.mpr (mem_countries.mpr ⟨hc.2, o, hlto, hvalid, rfl⟩)

/-- A map filled by `m[b] += 1`. -/
def counts (l : List ℕ) : List (ℕ × ℕ) := l.foldl (fun m b => Louvain.bump b 1 m) []

theorem mem_bump {m : List (ℕ × ℕ)} (h : (m.map Prod.fst).Nodup) {b c w : ℕ} :
    (b, w) ∈ Louvain.bump c 1 m ↔ b ≠ c ∧ (b, w) ∈ m ∨
      b = c ∧ ((∃ u, (c, u) ∈ m ∧ w = u + 1) ∨ c ∉ m.map Prod.fst ∧ w = 1) := by
  induction m with
  | nil => simp [Louvain.bump]
  | cons e m ih =>
    obtain ⟨d, u⟩ := e
    rw [map_cons, nodup_cons] at h
    rw [Louvain.bump]
    by_cases hd : d = c
    · subst hd
      have hother : ∀ v, (d, v) ∉ m := fun v hv => h.1 (mem_map.mpr ⟨_, hv, rfl⟩)
      simp only [if_true, mem_cons, Prod.mk.injEq, map_cons, true_or, not_true_eq_false,
        false_and, or_false]
      constructor
      · rintro (⟨rfl, rfl⟩ | hbw)
        · exact .inr ⟨rfl, u, .inl ⟨trivial, rfl⟩, rfl⟩
        · refine .inl ⟨?_, .inr hbw⟩
          rintro rfl
          exact hother w hbw
      · rintro (⟨hne, ⟨rfl, -⟩ | hbw⟩ | ⟨rfl, v, hv | hv, rfl⟩)
        · exact absurd rfl hne
        · exact .inr hbw
        · exact .inl ⟨rfl, by rw [hv.2]⟩
        · exact absurd hv (hother v)
    · have hd' : ¬ c = d := fun heq => hd heq.symm
      simp only [if_neg hd, mem_cons, Prod.mk.injEq, ih h.2, map_cons, hd', false_and, false_or]
      constructor
      · rintro (⟨rfl, rfl⟩ | ⟨hne, hbw⟩ | hbw)
        · exact .inl ⟨hd, .inl ⟨rfl, rfl⟩⟩
        · exact .inl ⟨hne, .inr hbw⟩
        · exact .inr hbw
      · rintro (⟨hne, hbw | hbw⟩ | hbw)
        · exact .inl hbw
        · exact .inr (.inl ⟨hne, hbw⟩)
        · exact .inr (.inr hbw)

theorem counts_spec (l : List ℕ) : ((counts l).map Prod.fst).Nodup ∧
    ∀ b w, (b, w) ∈ counts l ↔ 0 < w ∧ w = l.count b := by
  unfold counts
  induction l using reverseRecOn with
  | nil => exact ⟨nodup_nil, fun b w => by simp; omega⟩
  | append_singleton l c ih =>
    obtain ⟨hnodup, hmem⟩ := ih
    rw [foldl_append, foldl_cons, foldl_nil]
    generalize l.foldl (fun m b => Louvain.bump b 1 m) [] = m at hnodup hmem ⊢
    have hkey : c ∈ m.map Prod.fst ↔ c ∈ l := by
      rw [List.mem_map, ← count_pos_iff]
      constructor
      · rintro ⟨⟨d, u⟩, hu, rfl⟩
        obtain ⟨hpos, rfl⟩ := (hmem _ _).mp hu
        exact hpos
      · intro hpos
        exact ⟨(c, l.count c), (hmem _ _).mpr ⟨hpos, rfl⟩, rfl⟩
    refine ⟨?_, fun b w => ?_⟩
    · rw [Louvain.keys_bump]
      split_ifs with hc
      · exact hnodup
      · exact hnodup.append (nodup_singleton _) (disjoint_singleton.mpr hc)
    · rw [mem_bump hnodup, count_append, hkey, hmem]
      by_cases hbc : b = c
      · subst hbc
        simp only [ne_eq, not_true_eq_false, false_and, false_or, true_and, hmem,
          count_singleton_self]
        constructor
        · rintro (⟨u, ⟨hpos, rfl⟩, rfl⟩ | ⟨hnot, rfl⟩)
          · omega
          · rw [count_eq_zero_of_not_mem hnot]
            omega
        · rintro ⟨-, rfl⟩
          by_cases hb : b ∈ l
          · exact .inl ⟨l.count b, ⟨count_pos_iff.mpr hb, rfl⟩, rfl⟩
          · exact .inr ⟨hb, by rw [count_eq_zero_of_not_mem hb]⟩
      · have hzero : [c].count b = 0 := count_eq_zero_of_not_mem (by simpa using hbc)
        simp [hzero, hbc]

theorem count_rowOf (l : List (ℕ × ℕ)) (a b : ℕ) : (rowOf l a).count b = l.count (a, b) := by
  induction l with
  | nil => rfl
  | cons e l ih =>
    obtain ⟨c, d⟩ := e
    have hcons : rowOf ((c, d) :: l) a = (if c = a then [d] else []) ++ rowOf l a := by
      simp only [rowOf, filter_cons, decide_eq_true_eq]
      split_ifs <;> rfl
    rw [hcons, count_append, ih]
    by_cases hc : c = a
    · by_cases hd : d = b <;> simp [hc, hd, add_comm]
    · simp [hc]

theorem getD_aggregate {n a : ℕ} (ha : a < n) : (D.aggregate cfg D.mapOrgs.2 n).getD a [] =
    counts (rowOf ((range D.numPubs).flatMap (D.pubPairs cfg D.mapOrgs.2)) a) := by
  rw [aggregate, getD_eq_getElem?_getD,
    getElem?_foldl_modify (fun b m => Louvain.bump b 1 m), getElem?_replicate_of_lt ha,
    map_some, getD_some, counts, rowOf, foldl_map]

theorem length_aggregate (n : ℕ) : (D.aggregate cfg D.mapOrgs.2 n).length = n := by
  rw [aggregate, length_foldl_modify (fun b m => Louvain.bump b 1 m), length_replicate]

section

variable (T : PairOrder) (keep : ℕ → Bool)

def keptPairs (agg : List (List (ℕ × ℕ))) : List (ℕ × (ℕ × ℕ)) :=
  (List.range agg.length).flatMap fun a =>
    ((T.order a (agg.getD a [])).filter fun e => keep e.2).map fun e => (a, e)

theorem pushes_eq (agg : List (List (ℕ × ℕ))) : pushes T keep agg =
    (keptPairs T keep agg).flatMap fun t => [t, (t.2.1, (t.1, t.2.2))] := by
  rw [keptPairs, flatMap_assoc]
  refine flatMap_congr fun a _ => ?_
  rw [flatMap_map]

def weights (D : Publications) (cfg : CoauthorConfig) : List (List (ℕ × ℕ)) :=
  D.aggregate cfg D.mapOrgs.2 D.mapOrgs.1.length

theorem mem_keptPairs {a b w : ℕ} : (a, (b, w)) ∈ keptPairs T keep (D.weights cfg) ↔
    0 < w ∧ keep w = true ∧
      w = ((range D.numPubs).flatMap (D.pubPairs cfg D.mapOrgs.2)).count (a, b) := by
  simp only [keptPairs, weights, length_aggregate, mem_flatMap, mem_range, List.mem_map,
    mem_filter, Prod.mk.injEq]
  constructor
  · rintro ⟨a', ha, e, ⟨he, hkeep⟩, rfl, rfl⟩
    rw [(T.perm _ _).mem_iff, getD_aggregate ha, (counts_spec _).2, count_rowOf] at he
    exact ⟨he.1, hkeep, he.2⟩
  · rintro ⟨hpos, hkeep, hw⟩
    have hmem : (a, b) ∈ (range D.numPubs).flatMap (D.pubPairs cfg D.mapOrgs.2) :=
      count_pos_iff.mp (hw ▸ hpos)
    obtain ⟨hab, hb⟩ := lt_of_mem_pubPairs hmem
    have ha : a < D.mapOrgs.1.length := hab.trans hb
    refine ⟨a, ha, (b, w), ⟨?_, hkeep⟩, rfl, rfl⟩
    rw [(T.perm _ _).mem_iff, getD_aggregate ha, (counts_spec _).2, count_rowOf]
    exact ⟨hpos, hw⟩

theorem lt_of_mem_keptPairs {t : ℕ × (ℕ × ℕ)} (h : t ∈ keptPairs T keep (D.weights cfg)) :
    t.1 < t.2.1 ∧ t.2.1 < D.mapOrgs.1.length := by
  obtain ⟨hpos, -, hw⟩ := (mem_keptPairs T keep).mp h
  exact lt_of_mem_pubPairs (count_pos_iff.mp (hw ▸ hpos))

theorem nodup_keptPairs : (keptPairs T keep (D.weights cfg)).Nodup := by
  rw [keptPairs, nodup_flatMap]
  refine ⟨fun a ha => ?_, ?_⟩
  · have ha : a < D.mapOrgs.1.length := by
      rw [mem_range, weights, length_aggregate] at ha
      exact ha
    have hkeys : (((D.weights cfg).getD a []).map Prod.fst).Nodup := by
      rw [weights, getD_aggregate ha]
      exact (counts_spec _).1
    have hnodup := (T.perm a ((D.weights cfg).getD a [])).nodup_iff.mpr (List.Nodup.of_map _ hkeys)
    exact (hnodup.filter _).map fun x y hxy => (Prod.mk.inj hxy).2
  · refine nodup_range.imp fun {a b} hab t hta htb => hab ?_
    obtain ⟨e, -, rfl⟩ := mem_map.mp hta
    obtain ⟨f, -, heq⟩ := mem_map.mp htb
    exact (Prod.mk.inj heq).1.symm

theorem mem_rowOf_pushes {i : ℕ} {e : ℕ × ℕ} : e ∈ rowOf (pushes T keep (D.weights cfg)) i ↔
      (i, e) ∈ keptPairs T keep (D.weights cfg) ∨
        (e.1, (i, e.2)) ∈ keptPairs T keep (D.weights cfg) := by
  rw [mem_rowOf, pushes_eq, mem_flatMap]
  constructor
  · rintro ⟨t, ht, hmem⟩
    rcases mem_cons.mp hmem with rfl | hmem
    · exact .inl ht
    · obtain ⟨rfl, rfl⟩ := Prod.mk.inj (mem_singleton.mp hmem)
      exact .inr ht
  · rintro (h | h)
    · exact ⟨_, h, mem_cons_self⟩
    · exact ⟨_, h, by simp⟩

theorem eq_of_nodup_mem {α : Type} {l : List α} {P : Prop} [Decidable P] {t : α} (h : l.Nodup)
    (hmem : ∀ x, x ∈ l ↔ P ∧ x = t) : l = if P then [t] else [] := by
  split_ifs with hP
  · refine perm_singleton.mp ((perm_ext_iff_of_nodup h (nodup_singleton t)).mpr ?_)
    intro x
    rw [hmem]
    simp [hP]
  · exact eq_nil_iff_forall_not_mem.mpr fun x hx => hP ((hmem x).mp hx).1

theorem nodup_pushes : (pushes T keep (D.weights cfg)).Nodup := by
  rw [pushes_eq, nodup_flatMap]
  refine ⟨fun t ht => ?_, (nodup_keptPairs T keep).pairwise_of_forall_ne fun t ht u hu hne => ?_⟩
  · have hlt := (lt_of_mem_keptPairs T keep ht).1
    refine nodup_cons.mpr ⟨fun hmem => ?_, nodup_singleton _⟩
    have hfst := congrArg Prod.fst (mem_singleton.mp hmem)
    exact absurd hfst hlt.ne
  · have hlt := (lt_of_mem_keptPairs T keep ht).1
    have hlt' := (lt_of_mem_keptPairs T keep hu).1
    obtain ⟨a, b, w⟩ := t
    obtain ⟨c, d, v⟩ := u
    rintro x hx hx'
    simp only [mem_cons, not_mem_nil, or_false] at hx hx' hlt hlt'
    rcases hx with rfl | rfl
    · rcases hx' with heq | heq
      · exact hne heq
      · simp only [Prod.mk.injEq] at heq
        omega
    · rcases hx' with heq | heq
      · simp only [Prod.mk.injEq] at heq
        omega
      · simp only [Prod.mk.injEq] at heq
        exact hne (by rw [heq.1, heq.2.1, heq.2.2])

theorem nodup_rowOf_pushes (i : ℕ) : (rowOf (pushes T keep (D.weights cfg)) i).Nodup := by
  refine List.Nodup.map_on (fun x hx y hy hxy => Prod.ext ?_ hxy) ((nodup_pushes T keep).filter _)
  have hxi : x.1 = i := by simpa using (mem_filter.mp hx).2
  have hyi : y.1 = i := by simpa using (mem_filter.mp hy).2
  exact hxi.trans hyi.symm

theorem filter_rowOf_pushes {i j : ℕ} {x y : String} (hx : D.mapOrgs.1[i]? = some x)
    (hy : D.mapOrgs.1[j]? = some y) (hij : i ≠ j) :
    (rowOf (pushes T keep (D.weights cfg)) i).filter (fun e => e.1 = j) =
      if 0 < D.shared cfg x y ∧ keep (D.shared cfg x y) = true then [(j, D.shared cfg x y)]
      else [] := by
  have hsymm : D.shared cfg y x = D.shared cfg x y := by
    refine countP_congr fun p _ => ?_
    simp only [decide_eq_true_eq]
    tauto
  refine eq_of_nodup_mem ((nodup_rowOf_pushes T keep i).filter _) fun e => ?_
  obtain ⟨k, w⟩ := e
  rw [mem_filter, mem_rowOf_pushes, decide_eq_true_eq, mem_keptPairs, mem_keptPairs, Prod.mk.injEq]
  -- the pair is stored at the country with the smaller number
  rcases lt_or_gt_of_ne hij with hlt | hlt
  · have hnone : ((range D.numPubs).flatMap (D.pubPairs cfg D.mapOrgs.2)).count (j, i) = 0 :=
      count_eq_zero_of_not_mem fun h => absurd (lt_of_mem_pubPairs h).1 hlt.not_gt
    constructor
    · rintro ⟨⟨hpos, hkeep, hw⟩ | ⟨hpos, -, hw⟩, hk⟩
      · obtain rfl : k = j := hk
        rw [count_pubPairs hx hy hlt] at hw
        exact ⟨⟨hw ▸ hpos, hw ▸ hkeep⟩, rfl, hw⟩
      · obtain rfl : k = j := hk
        rw [hnone] at hw
        omega
    · rintro ⟨⟨hpos, hkeep⟩, rfl, rfl⟩
      exact ⟨.inl ⟨hpos, hkeep, (count_pubPairs hx hy hlt).symm⟩, rfl⟩
  · have hnone : ((range D.numPubs).flatMap (D.pubPairs cfg D.mapOrgs.2)).count (i, j) = 0 :=
      count_eq_zero_of_not_mem fun h => absurd (lt_of_mem_pubPairs h).1 hlt.not_gt
    constructor
    · rintro ⟨⟨hpos, -, hw⟩ | ⟨hpos, hkeep, hw⟩, hk⟩
      · obtain rfl : k = j := hk
        omega
      · obtain rfl : k = j := hk
        rw [count_pubPairs hy hx hlt, hsymm] at hw
        exact ⟨⟨hw ▸ hpos, hw ▸ hkeep⟩, rfl, hw⟩
    · rintro ⟨⟨hpos, hkeep⟩, rfl, rfl⟩
      exact ⟨.inr ⟨hpos, hkeep, ((count_pubPairs hy hx hlt).trans hsymm).symm⟩, rfl⟩

end

/-- If the id of the edge label is the one that stands for no edge, there are no countries. -/
def Found (D : Publications) : Prop := D.edgeLabel = 255 → ∀ c, ¬ D.HasCountry c

/-- The projection counts the publications that countries share, unless it does not find the edge
label. -/
theorem project_counts_iff (T : PairOrder) (keep : ℕ → Bool) :
    (∃ b, D.project T keep cfg = some b ∧ b.Counts D cfg keep) ↔ D.Found := by
  have hempty : (∀ c, ¬ D.HasCountry c) ↔ ({} : Projection).Counts D cfg keep := by
    constructor
    · intro hnone
      exact ⟨rfl, nodup_nil, fun c => iff_of_false (not_mem_nil) (hnone c), rfl,
        by simp, by simp, by simp⟩
    · intro h c hc
      cases (h.keys c).mpr hc
  rw [project, Found]
  by_cases hlabel : D.edgeLabel = 255
  · simp [hlabel, hempty]
  · simp only [hlabel, if_false, false_implies, iff_true]
    split_ifs with hzero
    · refine ⟨_, rfl, hempty.mp fun c hc => ?_⟩
      have hmem := mem_countries.mpr hc
      rw [length_eq_zero_iff.mp hzero] at hmem
      cases hmem
    · have hpushes : ∀ e ∈ pushes T keep (D.weights cfg), e.1 < D.mapOrgs.1.length := by
        intro e he
        rcases (mem_rowOf_pushes T keep).mp (mem_rowOf.mpr he) with h | h
        · exact (lt_of_mem_keptPairs T keep h).1.trans (lt_of_mem_keptPairs T keep h).2
        · exact (lt_of_mem_keptPairs T keep h).2
      have hrow : ∀ i, (((range D.mapOrgs.1.length).map
          (rowOf (pushes T keep (D.weights cfg)))).getD i []) =
            if i < D.mapOrgs.1.length then rowOf (pushes T keep (D.weights cfg)) i else [] := by
        intro i
        split_ifs with hi
        · rw [getD_eq_getElem?_getD, getElem?_map_range _ hi, getD_some]
        · exact getD_eq_default _ _ (by simpa using hi)
      refine ⟨_, by rw [← weights, foldlM_pushNext hpushes]; rfl, rfl, (mapped_mapOrgs D).nodup,
        fun c => mem_countries, by simp, fun i e he => ?_, fun i e he => ?_,
        fun i j x y hx hy hij => ?_⟩
      · rw [hrow] at he
        split_ifs at he
        · rcases (mem_rowOf_pushes T keep).mp he with h | h
          · exact (lt_of_mem_keptPairs T keep h).2
          · exact (lt_of_mem_keptPairs T keep h).1.trans (lt_of_mem_keptPairs T keep h).2
        · cases he
      · rw [hrow] at he
        split_ifs at he
        · rcases (mem_rowOf_pushes T keep).mp he with h | h
          · exact (lt_of_mem_keptPairs T keep h).1.ne'
          · exact (lt_of_mem_keptPairs T keep h).1.ne
        · cases he
      · rw [hrow, if_pos (List.getElem?_eq_some_iff.mp hx).1]
        exact filter_rowOf_pushes T keep hx hy hij

end Publications

/-- Both projections have one node for every country and join two countries by the number of
publications they share, the k-core only from `minEdgeWeight` on, unless the edge label has the id
255. -/
theorem coauthorProjection_iff (T : PairOrder) (D : Publications) (cfg : CoauthorConfig)
    (minEdgeWeight : ℤ) :
    ((∃ b, louvainCoauthorProjection T D cfg = some b ∧ b.Counts D cfg fun _ => true) ↔
        D.Found) ∧
      ((∃ b, kcoreCoauthorProjection T D cfg minEdgeWeight = some b ∧
        b.Counts D cfg fun w => !decide ((w : ℤ) < minEdgeWeight)) ↔ D.Found) :=
  ⟨Publications.project_counts_iff T _, Publications.project_counts_iff T _⟩

/-- One publication of two organizations in two countries, behind the 256th edge label. -/
def lastLabel : Publications where
  edgeLabel := 255
  numPubs := 1
  numOrgs := 2
  pubValid _ := true
  orgValid _ := true
  year _ := 2020
  countryCode o := if o = 0 then "DE" else "FR"
  authors _ := [0, 1]
  ends := by decide

/-- The edge label is taken for no label, so the graph is empty although two countries share a
publication. -/
theorem coauthorProjection_lastLabel :
    ∃ T cfg, louvainCoauthorProjection T lastLabel cfg = some {} ∧
      kcoreCoauthorProjection T lastLabel cfg 1 = some {} ∧ lastLabel.HasCountry "DE" ∧
      lastLabel.shared cfg "DE" "FR" = 1 :=
  ⟨⟨fun _ m => m, fun _ m => .refl m⟩, ⟨0, -1, 30⟩, rfl, rfl,
    ⟨by decide, 0, by decide, rfl, rfl⟩, by decide⟩

end Neug.Extension
