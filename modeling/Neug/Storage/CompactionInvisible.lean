import Neug.Storage.CompactionReads

/-! The rounds of `PropertyGraph::Compact` over the renumbered tables, and the graphs that
compaction shows as they were. -/
namespace Neug.Storage
open Neug.Lib List Option MutableCsr EdgeTable

variable {V : Type}

namespace MutableCsr

variable {D : Type} {c : MutableCsr D} {t ts : ℕ}

/-- What `EdgeTable::Compact` makes of a CSR when it does not throw. -/
def settled (compactCsr sort : Bool) (lt : D → D → Bool) (ts : ℕ) (c : MutableCsr D) :
    MutableCsr D :=
  let c₁ := if compactCsr then c.compact.1 else c
  (if sort then c₁.batchSortByEdgeData lt ts else c₁).resetTimestamp

def CountMatches (c : MutableCsr D) : Prop :=
  (((c.adj.map fun l => l.filter Nbr.alive).map List.length).sum : ℤ) = c.edgeNum

instance (c : MutableCsr D) : Decidable c.CountMatches := inferInstanceAs (Decidable (_ = _))

theorem compact_of_matches (h : c.CountMatches) : c.compact.2 = .ok () := if_pos h

theorem compact_of_not_matches (h : ¬ c.CountMatches) : ∃ e, c.compact.2 = .error e :=
  ⟨_, if_neg h⟩

/-- No entry but the tombstones is younger than `ts`. -/
def NoneAfter (ts : ℕ) (c : MutableCsr D) : Prop :=
  ∀ l ∈ c.adj, ∀ n ∈ l, n.alive = true → n.timestamp ≤ ts

theorem live_settled (compactCsr sort : Bool) (lt : D → D → Bool) (ts : ℕ) (c : MutableCsr D)
    (v w : ℕ) :
    (c.settled compactCsr sort lt ts).live v w = (c.live v w).map fun x => (0, x.2) := by
  unfold settled
  rw [live_resetTimestamp]
  congr 1
  cases sort <;> cases compactCsr <;>
    simp [live_batchSortByEdgeData, live_compact]

theorem le_of_mem_live (h : c.NoneAfter ts) {v w : ℕ} {x : ℕ × D} (hx : x ∈ c.live v w) :
    x.1 ≤ ts := by
  obtain ⟨n, hn, -, halive, rfl⟩ := mem_liveTo.mp hx
  have hv : c.list v ∈ c.adj := by
    unfold list at hn ⊢
    by_cases hlt : v < c.adj.length
    · rw [getD_eq_getElem _ _ hlt]
      exact getElem_mem hlt
    · rw [getD_eq_default _ _ (not_lt.mp hlt)] at hn
      cases hn
  exact h _ hv n hn (by simpa [Nbr.alive] using halive)

theorem view_settled (h : c.NoneAfter ts) (hts : ts < invalidTimestamp)
    (ht : t < invalidTimestamp) (compactCsr sort : Bool) (lt : D → D → Bool) :
    ((c.settled compactCsr sort lt ts).view t).Perm (c.view ts) := by
  classical
  rw [perm_iff_count]
  rintro ⟨v, w, d⟩
  rw [count_view ht, count_view hts, live_settled]
  have hall : (c.live v w).filter (fun x => x.1 ≤ ts) = c.live v w :=
    Multiset.filter_eq_self.mpr fun x hx => le_of_mem_live h hx
  rw [hall, Multiset.filter_eq_self.mpr, Multiset.map_map]
  · rfl
  · intro x hx
    obtain ⟨y, -, rfl⟩ := Multiset.mem_map.mp hx
    exact Nat.zero_le t

end MutableCsr

namespace VertexTimestamp

variable {x : VertexTimestamp} {u t ts : ℕ}

/-- A vertex that was inserted again after a removal below `init_vertex_num_`: it is still in
the removed set, and every entry up to its own is present. -/
def Lost (x : VertexTimestamp) (u : ℕ) : Prop :=
  u ∈ x.removedSet ∧ x.initVertexNum ≤ u ∧
    ∀ w ≤ u, x.initVertexNum ≤ w → x.entry w ≠ none

def NoneAfter (ts : ℕ) (x : VertexTimestamp) : Prop :=
  ∀ s ∈ x.inserted, s ≠ deletedTimestamp → s ≤ ts

theorem lt_length_takeWhile {α : Type} {p : α → Bool} {l : List α} {i : ℕ} :
    i < (l.takeWhile p).length ↔ ∀ j ≤ i, ∃ a, l[j]? = some a ∧ p a = true := by
  induction l generalizing i with
  | nil => simpa using ⟨i, le_rfl⟩
  | cons a l ih =>
    by_cases ha : p a = true
    · rw [takeWhile_cons_of_pos ha]
      cases i with
      | zero => simp [ha]
      | succ i =>
        rw [length_cons, add_lt_add_iff_right, ih]
        constructor
        · rintro h (_ | j) hj
          · exact ⟨a, rfl, ha⟩
          · exact h j (by omega)
        · intro h j hj
          exact h (j + 1) (by omega)
    · rw [takeWhile_cons_of_neg ha]
      simp only [length_nil, not_lt_zero, false_iff]
      intro h
      obtain ⟨b, hb, hp⟩ := h 0 (Nat.zero_le i)
      obtain rfl : a = b := by simpa using hb
      exact ha hp

/-- The run that `Compact` drops reaches up to the first entry that is not present. -/
theorem lt_init_add_firstNonZero (hu : x.initVertexNum ≤ u) :
    u < x.initVertexNum + x.resetTimestamps.firstNonZero ↔
      ∀ w ≤ u, x.initVertexNum ≤ w → x.entry w ≠ none := by
  have hlt : u < x.initVertexNum + x.resetTimestamps.firstNonZero ↔
      u - x.initVertexNum < x.resetTimestamps.firstNonZero := by omega
  rw [hlt, firstNonZero, lt_length_takeWhile]
  have hentry (i : ℕ) : (∃ a, x.resetTimestamps.inserted[i]? = some a ∧ decide (a = 0) = true) ↔
      x.entry (x.initVertexNum + i) ≠ none := by
    rw [entry_of_ge (Nat.le_add_right _ _), Nat.add_sub_cancel_left]
    simp only [resetTimestamps, getElem?_map]
    cases x.inserted[i]? with
    | none => simp
    | some s =>
      have hne : deletedTimestamp ≠ 0 := by decide
      by_cases hs : s = deletedTimestamp <;> simp [hs, hne]
  constructor
  · intro h w hwu hw
    obtain ⟨i, rfl⟩ := Nat.exists_eq_add_of_le hw
    exact (hentry i).mp (h i (by omega))
  · intro h i hi
    exact (hentry i).mpr (h _ (by omega) (Nat.le_add_right _ _))

/-- The map after compaction: present vertices are present from the beginning, but lost ones
are gone. -/
theorem entry_compact_apply (x : VertexTimestamp) (u : ℕ) [Decidable (x.Lost u)] :
    x.compact.entry u = if x.Lost u then none else x.entry.settle u := by
  have hlost : (x.resetTimestamps.initVertexNum ≤ u ∧
      u < x.resetTimestamps.initVertexNum + x.resetTimestamps.firstNonZero ∧
      u ∈ x.resetTimestamps.removedSet) ↔ x.Lost u := by
    constructor
    · rintro ⟨hge, hlt, hr⟩
      exact ⟨hr, hge, (lt_init_add_firstNonZero (x := x) hge).mp hlt⟩
    · rintro ⟨hr, hge, hall⟩
      exact ⟨hge, (lt_init_add_firstNonZero hge).mpr hall, hr⟩
  unfold compact
  rw [entry_dropLeading_apply, entry_resetTimestamps]
  exact if_congr hlost rfl rfl

theorem maxVertexNum_compact (x : VertexTimestamp) : x.compact.maxVertexNum = x.maxVertexNum := by
  unfold compact dropLeading
  split_ifs <;> rfl

theorem isVertexValid_maxVertexNum (x : VertexTimestamp) (t : ℕ) :
    x.isVertexValid x.maxVertexNum t = none := by
  have hsize := x.size
  unfold isVertexValid
  rw [if_neg (lt_irrefl _), if_pos (by omega), getElem?_eq_none (by omega)]
  rfl

theorem le_of_entry (h : x.NoneAfter ts) {s : ℕ} (hs : x.entry u = some s) : s ≤ ts := by
  by_cases hu : u < x.initVertexNum
  · rw [entry_of_lt hu] at hs
    split_ifs at hs
    exact (some.inj hs) ▸ Nat.zero_le ts
  · rw [entry_of_ge (by omega)] at hs
    cases hget : x.inserted[u - x.initVertexNum]? with
    | none => simp [hget] at hs
    | some s' =>
      by_cases hdel : s' = deletedTimestamp
      · simp [hget, hdel] at hs
      · obtain rfl : s' = s := by simpa [hget, hdel] using hs
        exact h s' (mem_of_getElem? hget) hdel

theorem isVertexValid_compact (h : x.NoneAfter ts) (hts : ts < deletedTimestamp)
    (ht : t < deletedTimestamp) (u : ℕ) :
    x.compact.isVertexValid u t = some true ↔ x.isVertexValid u ts = some true ∧ ¬ x.Lost u := by
  classical
  by_cases hu : u = x.maxVertexNum
  · subst hu
    rw [isVertexValid_maxVertexNum, ← maxVertexNum_compact x, isVertexValid_maxVertexNum]
    simp
  · rw [isVertexValid_eq hu hts, isVertexValid_eq (by rwa [maxVertexNum_compact]) ht]
    simp only [ValidityMap.validAt, entry_compact_apply]
    by_cases hlost : x.Lost u
    · simp [hlost]
    · rw [if_neg hlost]
      unfold ValidityMap.settle
      cases hs : x.entry u with
      | none => simp
      | some s => simp [hlost, le_of_entry h hs]

theorem Lost.isVertexValid (hlost : x.Lost u) (h : x.NoneAfter ts) (hts : ts < deletedTimestamp) :
    x.isVertexValid u ts = some true := by
  obtain ⟨-, hge, hall⟩ := hlost
  obtain ⟨s, hs⟩ := ne_none_iff_exists'.mp (hall u le_rfl hge)
  have hu : u ≠ x.maxVertexNum := by
    rintro rfl
    rw [entry_of_max_le le_rfl] at hs
    cases hs
  rw [isVertexValid_eq hu hts]
  simp [ValidityMap.validAt, hs, le_of_entry h hs]

end VertexTimestamp

theorem VertexTable.vertices_compact_iff {tab : VertexTable V} {t ts : ℕ}
    (h : tab.tracker.NoneAfter ts) (hts : ts < deletedTimestamp) (ht : t < deletedTimestamp) :
    tab.compact.vertices t = tab.vertices ts ↔ ∀ u < tab.keys.length, ¬ tab.tracker.Lost u := by
  have hvalid (u : ℕ) (hu : u < tab.keys.length) :
      (tab.compact.isValidLid u t == some true) = true ↔
        (tab.isValidLid u ts == some true) = true ∧ ¬ tab.tracker.Lost u := by
    rw [beq_iff_eq, beq_iff_eq, isValidLid, isValidLid, if_pos hu]
    rw [show tab.compact.keys = tab.keys from rfl, if_pos hu]
    exact VertexTimestamp.isVertexValid_compact h hts ht u
  constructor
  · intro heq u hu hlost
    have hseen : (tab.isValidLid u ts == some true) = true := by
      rw [beq_iff_eq, isValidLid, if_pos hu]
      exact hlost.isVertexValid h hts
    have hmem : (u, tab.keys[u]?, tab.row u) ∈ tab.compact.vertices t := by
      rw [heq]
      exact mem_map.mpr ⟨u, mem_filter.mpr ⟨mem_range.mpr hu, hseen⟩, rfl⟩
    obtain ⟨w, hw, hwu⟩ := mem_map.mp hmem
    obtain rfl : w = u := congrArg Prod.fst hwu
    exact ((hvalid w hu).mp (mem_filter.mp hw).2).2 hlost
  · intro hnone
    have hfilter : (range tab.keys.length).filter
        (fun u => tab.compact.isValidLid u t == some true) =
        (range tab.keys.length).filter fun u => tab.isValidLid u ts == some true := by
      refine filter_congr fun u hu => ?_
      have hu := mem_range.mp hu
      rw [Bool.eq_iff_iff, hvalid u hu]
      exact and_iff_left (hnone u hu)
    exact congrArg (map fun u => (u, tab.keys[u]?, tab.row u)) hfilter

namespace EdgeTable

variable [PropertyValue V] {tab tab' : EdgeTable V} {t ts : ℕ}

def CountsMatch (tab : EdgeTable V) : Prop := tab.outCsr.CountMatches ∧ tab.inCsr.CountMatches

instance (tab : EdgeTable V) : Decidable tab.CountsMatch := inferInstanceAs (Decidable (_ ∧ _))

def settled (compactCsr sort : Bool) (ts : ℕ) (tab : EdgeTable V) : EdgeTable V :=
  { tab with outCsr := tab.outCsr.settled compactCsr sort dataLt ts
             inCsr := tab.inCsr.settled compactCsr sort dataLt ts }

/-- The part of `Compact` behind the removal of tombstones. -/
def sortAndReset (sort : Bool) (ts : ℕ) : EdgeCall V Unit := do
  sortBoth sort ts
  Call.modify fun t =>
    { t with outCsr := t.outCsr.resetTimestamp, inCsr := t.inCsr.resetTimestamp }

theorem sortAndReset_eq (sort : Bool) (ts : ℕ) (tab : EdgeTable V) :
    sortAndReset sort ts tab = some (.ok (), tab.settled false sort ts) := by
  cases sort <;> rfl

theorem compact_eq_ok_iff (compactCsr sort : Bool) (ts : ℕ) :
    compact compactCsr sort ts tab = some (.ok (), tab') ↔
      (compactCsr = true → tab.CountsMatch) ∧ tab' = tab.settled compactCsr sort ts := by
  cases compactCsr with
  | false =>
    change sortAndReset sort ts tab = _ ↔ _
    rw [sortAndReset_eq]
    simp [eq_comm]
  | true =>
    change (do (do compactOut; compactIn); sortAndReset sort ts) tab = _ ↔ _
    rw [Call.bind_apply, Call.bind_apply]
    unfold compactOut compactIn
    by_cases hout : tab.outCsr.CountMatches
    · by_cases hin : tab.inCsr.CountMatches
      · have hmatch : tab.CountsMatch := ⟨hout, hin⟩
        simp only [compact_of_matches hout, compact_of_matches hin,
          Except.mapError, sortAndReset_eq, hmatch, implies_true, true_and, some.injEq,
          Prod.mk.injEq]
        exact eq_comm
      · have hmatch : ¬ tab.CountsMatch := fun h => hin h.2
        obtain ⟨e, he⟩ := compact_of_not_matches hin
        simp [compact_of_matches hout, he, Except.mapError, hmatch]
    · have hmatch : ¬ tab.CountsMatch := fun h => hout h.1
      obtain ⟨e, he⟩ := compact_of_not_matches hout
      simp [he, Except.mapError, hmatch]

end EdgeTable

namespace PropertyGraph

section

variable [PropertyValue V] (compactCsr : Bool) (sortOn : TripletName → Bool) (ts : ℕ)
  {g g' : PropertyGraph V}

def settledTable (g : PropertyGraph V) (τ : Triplet) : Option (EdgeTable V) :=
  (g.edgeTables τ).map (EdgeTable.settled compactCsr (sortOn (g.tripletName τ)) ts)

def roundDone (g : PropertyGraph V) : Round → PropertyGraph V
  | .vertex label => { g with vertexTables := g.vertexTables.modify label VertexTable.compact }
  | .edge τ =>
    { g with edgeTables := Function.update g.edgeTables τ (g.settledTable compactCsr sortOn ts τ) }

def RoundOk (g : PropertyGraph V) : Round → Prop
  | .vertex _ => True
  | .edge τ => ∀ tab, g.edgeTables τ = some tab → compactCsr = true → tab.CountsMatch

theorem compactRound_eq_ok_iff (r : Round) :
    compactRound compactCsr sortOn ts r g = some (.ok (), g') ↔
      g.RoundOk compactCsr r ∧ g' = g.roundDone compactCsr sortOn ts r := by
  cases r with
  | vertex label => simp [compactRound, RoundOk, roundDone, eq_comm]
  | edge τ =>
    cases hτ : g.edgeTables τ with
    | none =>
      have hsame : Function.update g.edgeTables τ none = g.edgeTables := by
        rw [← hτ, Function.update_eq_self]
      simp only [compactRound, RoundOk, roundDone, settledTable, hτ, hsame, map_none,
        some.injEq, Prod.mk.injEq, true_and, reduceCtorEq, false_implies, implies_true]
      exact eq_comm
    | some tab =>
      simp only [compactRound, RoundOk, roundDone, settledTable, hτ, some.injEq, forall_eq', map_eq_some_iff, Prod.mk.injEq, Prod.exists]
      constructor
      · rintro ⟨res, tab', hcompact, hres, rfl⟩
        cases res with
        | error e => cases hres
        | ok =>
          obtain ⟨hmatch, rfl⟩ := (compact_eq_ok_iff _ _ _).mp hcompact
          exact ⟨hmatch, rfl⟩
      · rintro ⟨hmatch, rfl⟩
        exact ⟨_, _, (compact_eq_ok_iff _ _ _).mpr ⟨hmatch, rfl⟩, rfl, rfl⟩

theorem roundOk_roundDone {r r' : Round} (hne : r' ≠ r) :
    (g.roundDone compactCsr sortOn ts r).RoundOk compactCsr r' ↔ g.RoundOk compactCsr r' := by
  cases r' with
  | vertex => rfl
  | edge τ =>
    cases r with
    | vertex => rfl
    | edge σ =>
      have hne : τ ≠ σ := fun h => hne (congrArg Round.edge h)
      simp [RoundOk, roundDone, Function.update_of_ne hne]

theorem compactRounds_eq_ok_iff {l : List Round} (hl : l.Nodup) :
    compactRounds compactCsr sortOn ts l g = some (.ok (), g') ↔
      (∀ r ∈ l, g.RoundOk compactCsr r) ∧ g' = l.foldl (roundDone compactCsr sortOn ts) g := by
  induction l generalizing g with
  | nil => simp [compactRounds, eq_comm]
  | cons r l ih =>
    obtain ⟨hr, hl⟩ := nodup_cons.mp hl
    have hothers : (∀ r' ∈ l, (g.roundDone compactCsr sortOn ts r).RoundOk compactCsr r') ↔
        ∀ r' ∈ l, g.RoundOk compactCsr r' :=
      forall₂_congr fun r' hr' => roundOk_roundDone compactCsr sortOn ts fun heq => hr (heq ▸ hr')
    rw [compactRounds, forall_mem_cons]
    constructor
    · intro h
      rcases Call.bind_cases h with ⟨_, g₁, hfirst, hrest⟩ | ⟨e, -, he⟩
      · obtain ⟨hok, rfl⟩ := (compactRound_eq_ok_iff compactCsr sortOn ts r).mp hfirst
        obtain ⟨hoks, hg'⟩ := (ih hl).mp hrest
        exact ⟨⟨hok, hothers.mp hoks⟩, hg'⟩
      · cases he
    · rintro ⟨⟨hok, hoks⟩, hg'⟩
      rw [Call.bind_apply, (compactRound_eq_ok_iff compactCsr sortOn ts r).mpr ⟨hok, rfl⟩]
      exact (ih hl).mpr ⟨hothers.mpr hoks, hg'⟩

/-- What the rounds leave: each table of a round is compacted once. -/
theorem foldl_roundDone {l : List Round} (hl : l.Nodup) (g : PropertyGraph V) :
    (l.foldl (roundDone compactCsr sortOn ts) g).schema = g.schema ∧
    (∀ i, (l.foldl (roundDone compactCsr sortOn ts) g).vertexTables[i]? =
      if .vertex i ∈ l then (g.vertexTables[i]?).map VertexTable.compact
      else g.vertexTables[i]?) ∧
    ∀ τ, (l.foldl (roundDone compactCsr sortOn ts) g).edgeTables τ =
      if .edge τ ∈ l then g.settledTable compactCsr sortOn ts τ else g.edgeTables τ := by
  induction l generalizing g with
  | nil => simp
  | cons r l ih =>
    obtain ⟨hr, hl⟩ := nodup_cons.mp hl
    obtain ⟨hschema, hvertex, hedge⟩ := ih hl (g.roundDone compactCsr sortOn ts r)
    rw [foldl_cons]
    cases r with
    | vertex label =>
      refine ⟨hschema, fun i => ?_, fun τ => ?_⟩
      · rw [hvertex]
        simp only [roundDone, getElem?_modify]
        by_cases hi : i = label
        · subst hi
          simp [hr]
        · cases g.vertexTables[i]? <;> simp [hi, Ne.symm hi]
      · rw [hedge]
        simp [roundDone, settledTable, tripletName]
    | edge σ =>
      refine ⟨hschema, fun i => ?_, fun τ => ?_⟩
      · rw [hvertex]
        simp [roundDone]
      · rw [hedge]
        by_cases hτ : τ = σ
        · subst hτ
          simp [hr, roundDone]
        · simp [hτ, roundDone, settledTable, tripletName]

end

section

variable {g : PropertyGraph V} {τ : Triplet}

theorem mem_rounds_vertex {i : ℕ} : .vertex i ∈ g.rounds ↔ i ∈ g.schema.liveVertexLabels := by
  simp [rounds]

theorem mem_rounds_edge : .edge τ ∈ g.rounds ↔ τ ∈ g.liveTriplets := by
  simp [rounds, liveTriplets]

theorem fst_of_mem_liveTripletsFrom {src : ℕ} (h : τ ∈ g.liveTripletsFrom src) : τ.1 = src := by
  simp only [liveTripletsFrom, mem_flatMap, List.mem_map] at h
  obtain ⟨dst, -, e, -, rfl⟩ := h
  rfl

theorem nodup_liveTripletsFrom (src : ℕ) : (g.liveTripletsFrom src).Nodup := by
  refine nodup_flatMap.mpr ⟨fun dst _ => ?_, ?_⟩
  · refine ((nodup_kept _ _).filter _).map fun e e' h => ?_
    simpa using h
  · refine (nodup_kept _ _).imp fun {dst dst'} hne => ?_
    rintro τ hτ hτ'
    obtain ⟨e, -, rfl⟩ := mem_map.mp hτ
    obtain ⟨e', -, heq⟩ := mem_map.mp hτ'
    simp only [Prod.mk.injEq] at heq
    exact hne heq.2.1.symm

theorem nodup_rounds (g : PropertyGraph V) : g.rounds.Nodup := by
  refine nodup_flatMap.mpr ⟨fun src _ => ?_, ?_⟩
  · refine nodup_cons.mpr ⟨by simp, ?_⟩
    exact (nodup_liveTripletsFrom src).map fun τ τ' h => Round.edge.inj h
  · refine (nodup_kept _ _).imp fun {src src'} hne => ?_
    rintro r hr hr'
    rcases mem_cons.mp hr with rfl | hr
    · simp [hne] at hr'
    · obtain ⟨τ, hτ, rfl⟩ := mem_map.mp hr
      have hτ' : τ ∈ g.liveTripletsFrom src' := by simpa using hr'
      exact hne ((fst_of_mem_liveTripletsFrom hτ).symm.trans (fst_of_mem_liveTripletsFrom hτ'))

theorem mem_liveVertexLabels_renumbered {i : ℕ} :
    i ∈ g.renumbered.schema.liveVertexLabels ↔ i < g.schema.liveVertexLabels.length := by
  rw [Schema.mem_liveVertexLabels]
  simp [Schema.vertexLabelValid, renumbered, Schema.compacted]

theorem newTriplet_mem (h : τ ∈ g.liveTriplets) : g.newTriplet τ ∈ g.renumbered.liveTriplets := by
  obtain ⟨hs, hd, he, hex⟩ := mem_liveTriplets.mp h
  refine mem_liveTriplets.mpr ⟨?_, ?_, ?_, (exist_renumbered hs hd he).trans hex⟩
  · rw [← Schema.mem_liveVertexLabels, mem_liveVertexLabels_renumbered]
    exact idxOf_lt_length_of_mem (Schema.mem_liveVertexLabels.mpr hs)
  · rw [← Schema.mem_liveVertexLabels, mem_liveVertexLabels_renumbered]
    exact idxOf_lt_length_of_mem (Schema.mem_liveVertexLabels.mpr hd)
  · have hlt := idxOf_lt_length_of_mem (Schema.mem_liveEdgeLabels.mpr he)
    simpa [Schema.edgeLabelValid, renumbered, Schema.compacted, newTriplet, Schema.newEdge]
      using hlt

namespace Consistent

variable (hg : g.Consistent)
include hg

theorem vertexTables_renumbered {label : ℕ} (h : g.schema.vertexLabelValid label = true) :
    g.renumbered.vertexTables[g.schema.newVertex label]? = g.vertexTables[label]? :=
  getElem?_filterMap_idxOf (fun _ hlabel => hg.isSome_table hlabel)
    (Schema.mem_liveVertexLabels.mpr h)

theorem vertexSchemas_renumbered {label : ℕ} (h : g.schema.vertexLabelValid label = true) :
    g.renumbered.schema.vertexSchemas[g.schema.newVertex label]? = g.schema.vertexSchemas[label]? :=
  getElem?_filterMap_idxOf (fun _ hlabel => hg.isSome_schema hlabel)
    (Schema.mem_liveVertexLabels.mpr h)

end Consistent

end

section

variable [PropertyValue V] (compactCsr : Bool) (sortOn : TripletName → Bool) (ts : ℕ)
  {g g' : PropertyGraph V} {τ : Triplet}

def compacted (g : PropertyGraph V) : PropertyGraph V :=
  g.renumbered.rounds.foldl (roundDone compactCsr sortOn ts) g.renumbered

theorem schema_compacted : (g.compacted compactCsr sortOn ts).schema = g.schema.compacted :=
  (foldl_roundDone compactCsr sortOn ts (nodup_rounds _) _).1

theorem vertexTables_compacted (hg : g.Consistent) {label : ℕ}
    (h : g.schema.vertexLabelValid label = true) :
    (g.compacted compactCsr sortOn ts).vertexTables[g.schema.newVertex label]? =
      (g.vertexTables[label]?).map VertexTable.compact := by
  have hround : .vertex (g.schema.newVertex label) ∈ g.renumbered.rounds :=
    mem_rounds_vertex.mpr (mem_liveVertexLabels_renumbered.mpr
      (idxOf_lt_length_of_mem (Schema.mem_liveVertexLabels.mpr h)))
  unfold compacted
  rw [(foldl_roundDone compactCsr sortOn ts (nodup_rounds _) _).2.1, if_pos hround,
    hg.vertexTables_renumbered h]

theorem isSome_edgeTables_compacted (τ : Triplet) :
    ((g.compacted compactCsr sortOn ts).edgeTables τ).isSome =
      (g.renumbered.edgeTables τ).isSome := by
  unfold compacted
  rw [(foldl_roundDone compactCsr sortOn ts (nodup_rounds _) _).2.2]
  split_ifs
  · unfold settledTable
    rw [isSome_map]
  · rfl

theorem edgeTables_compacted (h : τ ∈ g.liveTriplets) :
    ∃ sort, (g.compacted compactCsr sortOn ts).edgeTables (g.newTriplet τ) =
      (g.edgeTables τ).map (EdgeTable.settled compactCsr sort ts) := by
  unfold compacted
  rw [(foldl_roundDone compactCsr sortOn ts (nodup_rounds _) _).2.2,
    if_pos (mem_rounds_edge.mpr (newTriplet_mem h)), settledTable, edgeTables_renumbered h]
  exact ⟨_, rfl⟩

theorem tripletId_compacted (hg : g.Consistent) (n : TripletName) :
    (g.compacted compactCsr sortOn ts).tripletId n = (g.tripletId n).map g.newTriplet := by
  rw [← tripletId_renumbered hg]
  unfold tripletId exist hasEdgeLabel
  simp only [isSome_edgeTables_compacted, schema_compacted]
  rfl

theorem edgeTableOf_compacted (hg : g.Consistent) (n : TripletName) :
    ∃ sort, (g.compacted compactCsr sortOn ts).edgeTableOf n =
      (g.edgeTableOf n).map (EdgeTable.settled compactCsr sort ts) := by
  unfold edgeTableOf
  rw [tripletId_compacted compactCsr sortOn ts hg]
  cases hτ : g.tripletId n with
  | none => exact ⟨false, rfl⟩
  | some τ => exact edgeTables_compacted compactCsr sortOn ts (mem_liveTriplets_of_tripletId hτ)

theorem vertexId_compacted (hg : g.Consistent) (name : String) :
    (g.compacted compactCsr sortOn ts).schema.vertexId name =
      (g.schema.vertexId name).map g.schema.newVertex := by
  rw [schema_compacted, Schema.vertexId_compacted hg.vertexNames]

/-- `Compact` returns exactly when, with CSR compaction, the counts of all edge tables are
right. -/
theorem compact_eq_ok_iff (hg : g.Consistent) : compact compactCsr sortOn ts g = some (.ok (), g') ↔
      (∀ τ ∈ g.liveTriplets, ∀ tab, g.edgeTables τ = some tab → compactCsr = true →
        tab.CountsMatch) ∧ g' = g.compacted compactCsr sortOn ts := by
  have hrounds : compact compactCsr sortOn ts g =
      compactRounds compactCsr sortOn ts g.renumbered.rounds g.renumbered := by
    unfold compact
    rw [Call.bind_apply, compactSchema_eq hg]
    rfl
  rw [hrounds, compactRounds_eq_ok_iff compactCsr sortOn ts (nodup_rounds _)]
  refine and_congr_left fun _ => ?_
  constructor
  · intro h τ hτ tab htab
    refine h (.edge (g.newTriplet τ)) (mem_rounds_edge.mpr (newTriplet_mem hτ)) tab ?_
    rwa [edgeTables_renumbered hτ]
  · rintro h (i | τ) hr
    · trivial
    · intro tab htab
      obtain ⟨σ, hσ, rfl⟩ := exists_of_edgeTables_renumbered htab
      rw [edgeTables_renumbered hσ] at htab
      exact h σ hσ tab htab

end

/-- No timestamp of the graph is larger than `ts`. -/
structure CommittedBy (ts : ℕ) (g : PropertyGraph V) : Prop where
  vertices : ∀ label tab, g.schema.vertexLabelValid label = true →
    g.vertexTables[label]? = some tab → tab.tracker.NoneAfter ts
  edges : ∀ τ ∈ g.liveTriplets, ∀ tab, g.edgeTables τ = some tab →
    tab.outCsr.NoneAfter ts ∧ tab.inCsr.NoneAfter ts

/-- `Compact` returns, and every timestamp then shows what `ts` showed before. -/
def Invisible [PropertyValue V] (g : PropertyGraph V) (compactCsr : Bool)
    (sortOn : TripletName → Bool) (ts : ℕ) : Prop :=
  ∃ g', compact compactCsr sortOn ts g = some (.ok (), g') ∧
    ∀ t < invalidTimestamp, g.SameReads ts g' t

/-- No vertex is lost, and with CSR compaction the counts of the edge tables are right. -/
structure Compactable (compactCsr : Bool) (g : PropertyGraph V) : Prop where
  vertices : ∀ label tab, g.schema.vertexLabelValid label = true →
    g.vertexTables[label]? = some tab → ∀ u < tab.keys.length, ¬ tab.tracker.Lost u
  edges : compactCsr = true → ∀ τ ∈ g.liveTriplets, ∀ tab, g.edgeTables τ = some tab →
    tab.CountsMatch

section

variable [PropertyValue V] {compactCsr : Bool} {sortOn : TripletName → Bool} {ts : ℕ}
  {g : PropertyGraph V}

section

variable {t : ℕ} (hg : g.Consistent) (hcommitted : g.CommittedBy ts) (hts : ts < invalidTimestamp)
  (ht : t < invalidTimestamp)
include hg hcommitted hts ht

theorem verticesOf_compacted_iff {name : String} {label : ℕ}
    (hlabel : g.schema.vertexId name = some label) :
    (g.compacted compactCsr sortOn ts).verticesOf name t = g.verticesOf name ts ↔
      ∀ tab, g.vertexTables[label]? = some tab → ∀ u < tab.keys.length, ¬ tab.tracker.Lost u := by
  have hvalid := (filter_eq_some_iff.mp hlabel).2
  unfold verticesOf vertices
  rw [vertexId_compacted compactCsr sortOn ts hg, hlabel]
  simp only [map_some, vertexTables_compacted compactCsr sortOn ts hg hvalid]
  cases htab : g.vertexTables[label]? with
  | none => simp
  | some tab =>
    simp only [map_some, some.injEq, forall_eq']
    exact VertexTable.vertices_compact_iff (hcommitted.vertices label tab hvalid htab) hts ht

theorem sameReads_compacted (hvertices : ∀ name,
      (g.compacted compactCsr sortOn ts).verticesOf name t = g.verticesOf name ts) :
    g.SameReads ts (g.compacted compactCsr sortOn ts) t := by
  have hviews (n : TripletName) :
      ((g.compacted compactCsr sortOn ts).outgoingOf n t).Perm (g.outgoingOf n ts) ∧
      ((g.compacted compactCsr sortOn ts).incomingOf n t).Perm (g.incomingOf n ts) := by
    obtain ⟨sort, htab⟩ := edgeTableOf_compacted compactCsr sortOn ts hg n
    unfold outgoingOf incomingOf
    rw [htab]
    cases hn : g.edgeTableOf n with
    | none => exact ⟨.refl _, .refl _⟩
    | some tab =>
      obtain ⟨τ, hτ, hedge⟩ := bind_eq_some_iff.mp hn
      obtain ⟨hout, hin⟩ := hcommitted.edges τ (mem_liveTriplets_of_tripletId hτ) tab hedge
      exact ⟨(view_settled hout hts ht compactCsr sort dataLt).map _,
        (view_settled hin hts ht compactCsr sort dataLt).map _⟩
  refine ⟨fun name => ?_, fun name => ?_, fun n => ?_, fun name => ?_, fun n => ?_, hvertices,
    fun n => (hviews n).1, fun n => (hviews n).2⟩
  · rw [vertexId_compacted compactCsr sortOn ts hg, isSome_map]
  · rw [schema_compacted, Schema.edgeId_compacted hg.edgeNames, isSome_map]
  · rw [tripletId_compacted compactCsr sortOn ts hg, isSome_map]
  · unfold propertiesOf vertexProperties
    rw [vertexId_compacted compactCsr sortOn ts hg]
    cases hlabel : g.schema.vertexId name with
    | none => rfl
    | some label =>
      have hvalid := (filter_eq_some_iff.mp hlabel).2
      simp only [map_some, schema_compacted]
      rw [show g.schema.compacted = g.renumbered.schema from rfl,
        hg.vertexSchemas_renumbered hvalid]
  · obtain ⟨sort, htab⟩ := edgeTableOf_compacted compactCsr sortOn ts hg n
    rw [htab, Option.map_map]
    rfl

end

end

def twoPeople : PropertyGraph ℕ where
  schema := ⟨["person"], ∅, [⟨some (.int64, "id"), []⟩], ["knows"], ∅, ∅⟩
  vertexTables := [⟨[10, 11], 2, some .empty, ⟨0, 2, [1, 2], none, rfl⟩⟩]
  edgeTables := fun τ => if τ = (0, 0, 0) then some
    { EdgeTable.create [] with
        outCsr := ⟨[[⟨1, 3, .empty⟩], []], 1, 0⟩
        inCsr := ⟨[[], [⟨0, 3, .empty⟩]], 1, 0⟩ } else none

def personGraph : PropertyGraph ℕ where
  schema := ⟨["person"], ∅, [⟨some (.int64, "id"), []⟩], [], ∅, ∅⟩
  vertexTables := [.create [] []]
  edgeTables := fun _ => none

/-- A vertex is inserted, the graph is compacted, which starts the timestamps over, and the
vertex is deleted and inserted again. -/
def reinsertion : Option (PropertyGraph ℕ) := do
  let g ← (onVertex 0 (VertexTable.ensureCapacity [] 4096)).after personGraph
  let g ← (addVertex 0 10 [] 1).after g
  let g ← (compact true (fun _ => false) 2).after g
  let g ← (deleteVertex (fun _ => ⟨fun _ => 0, fun _ => 0⟩) 0 0 1).after g
  (addVertex 0 10 [] 2).after g

set_option maxRecDepth 100000 in
theorem reinsertion_run : reinsertion.any (fun g =>
    decide (g.verticesOf "person" 3 = some [(0, some 10, [])]) &&
    (compact true (fun _ => false) 3 g).any fun r =>
      r.1.isOk && decide (r.2.verticesOf "person" 0 = some [])) = true := by
  decide +kernel

theorem exists_of_any {α : Type} {o : Option α} {p : α → Bool} (h : o.any p = true) :
    ∃ a, o = some a ∧ p a = true := by
  cases o with
  | none => cases h
  | some a => exact ⟨a, rfl, h⟩

end PropertyGraph

end Neug.Storage
