import Neug.Storage.EdgeDeletion

/-! The edges between two vertices as `DeleteEdges` takes them: each has an offset in the list of
the source and a rank among the visible edges of the source, and the rank is used as offset. -/
namespace Neug.Storage
open Neug.Lib List Option

variable {V : Type}

/-- The edges that `DeleteEdges` finds in a list: the offset of each, and the count that the
loop has arrived at. -/
def places (l : List (Nbr (EdgeData V))) (ts dst : ℕ) : List (ℕ × ℕ) :=
  (candidates l ts dst).map fun i => (i, (l.take i).countP (Nbr.visible ts))

def rounds (l : List (Nbr (EdgeData V))) (ts dst : ℕ) : List ℕ → ℕ → List (ℕ × ℕ)
  | [], _ => []
  | i :: is, k =>
    match l[i]? with
    | none => []
    | some n =>
      if n.timestamp ≤ ts then
        if n.neighbor = dst then (i, k) :: rounds l ts dst is (k + 1)
        else rounds l ts dst is (k + 1)
      else rounds l ts dst is k

theorem rounds_range' (l : List (Nbr (EdgeData V))) (ts dst i m : ℕ) (h : i + m ≤ l.length) :
    rounds l ts dst (range' i m) ((l.take i).countP (Nbr.visible ts)) =
      ((range' i m).filter fun j => (l[j]?).any fun n => n.visible ts && n.neighbor == dst).map
          fun j => (j, (l.take j).countP (Nbr.visible ts)) := by
  induction m generalizing i with
  | zero => rfl
  | succ m ih =>
    have hi : i < l.length := by omega
    have hn : l[i]? = some l[i] := getElem?_eq_getElem hi
    have hnext := ih (i + 1) (by omega)
    rw [take_add_one, hn, countP_append] at hnext
    rw [range'_succ, rounds, filter_cons, hn]
    by_cases hvis : l[i].timestamp ≤ ts
    · have hone : (some l[i]).toList.countP (Nbr.visible ts) = 1 := by simp [Nbr.visible, hvis]
      rw [hone] at hnext
      by_cases hdst : l[i].neighbor = dst
      · have hfound : ((some l[i]).any fun n => n.visible ts && n.neighbor == dst) = true := by
          simp [hdst, Nbr.visible, hvis]
        simp [if_pos hvis, if_pos hdst, hnext, hfound]
      · have hother : ((some l[i]).any fun n => n.visible ts && n.neighbor == dst) = false := by
          simp [hdst]
        simp [if_pos hvis, if_neg hdst, hnext, hother]
    · have hzero : (some l[i]).toList.countP (Nbr.visible ts) = 0 := by simp [Nbr.visible, hvis]
      have hhidden : ((some l[i]).any fun n => n.visible ts && n.neighbor == dst) = false := by
        simp [Nbr.visible, hvis]
      rw [hzero] at hnext
      simp only [if_neg hvis, hhidden]
      exact hnext

theorem rounds_eq_places (l : List (Nbr (EdgeData V))) (ts dst : ℕ) :
    rounds l ts dst (range l.length) 0 = places l ts dst := by
  have h := rounds_range' l ts dst 0 l.length (by omega)
  rw [take_zero, countP_nil, ← range_eq_range'] at h
  rw [h, places, candidates, offsets_eq_filter]

namespace EdgeTable

/-- The deletions of `DeleteEdges`, on the edge table. -/
def deletePlaces [PropertyValue V] (past : Past) (src dst ts : ℕ) : List (ℕ × ℕ) → EdgeCall V Unit
  | [] => pure ()
  | (i, k) :: rest => do
    let t ← Call.read
    let n ← Call.defined (t.outCsr.list src)[i]?
    let ie ← Call.defined (t.searchInOffset past src i ts n)
    deleteEdge src dst k ie ts
    deletePlaces past src dst ts rest

variable {t t' : EdgeTable V} {past : Past} {src dst ts i k ie : ℕ}

/-- However `DeleteEdge` ends, it has deleted one outgoing entry and at most one incoming. -/
theorem deleteEdge_run (hk : k < (t.outCsr.list src).length) (dst ie ts : ℕ) :
    ∃ r t', deleteEdge src dst k ie ts t = some (r, t') ∧
      ∃ ins, Killed ts t t' [(src, k)] ins := by
  by_cases hie : ie < (t.inCsr.list dst).length
  · obtain ⟨t', hdel, hkilled⟩ := deleteEdge_killed hk hie ts
    exact ⟨_, t', hdel, _, hkilled⟩
  · obtain ⟨t', hdel, hkilled⟩ := deleteEdge_fails hk (not_lt.mp hie) ts
    exact ⟨_, t', hdel, _, hkilled⟩

def Ahead (src : ℕ) (outs : List (ℕ × ℕ)) (ps : List (ℕ × ℕ)) : Prop :=
  ps.Pairwise (fun p q => p.1 < q.1) ∧ (∀ p ∈ ps, p.2 ≤ p.1) ∧ ∀ p ∈ ps, (src, p.1) ∉ outs

theorem Ahead.tail {outs ps : List (ℕ × ℕ)} (h : Ahead src outs ((i, k) :: ps)) :
    Ahead src (outs ++ [(src, k)]) ps := by
  obtain ⟨hsorted, hle, hout⟩ := h
  obtain ⟨hfirst, hrest⟩ := pairwise_cons.mp hsorted
  refine ⟨hrest, fun p hp => hle p (mem_cons_of_mem _ hp), fun p hp hmem => ?_⟩
  rcases mem_append.mp hmem with hmem | hmem
  · exact hout p (mem_cons_of_mem _ hp) hmem
  · have hlt := hfirst p hp
    have hki := hle (i, k) mem_cons_self
    simp only [mem_singleton, Prod.mk.injEq] at hmem
    omega

theorem ahead_places (l : List (Nbr (EdgeData V))) (ts dst src : ℕ) :
    Ahead src [] (places l ts dst) := by
  refine ⟨?_, ?_, by simp⟩
  · exact pairwise_map.mpr (pairwise_offsets _ l)
  · intro p hp
    obtain ⟨i, -, rfl⟩ := mem_map.mp hp
    exact countP_le_length.trans (length_take_le i l)

theorem map_fst_places (l : List (Nbr (EdgeData V))) (ts dst : ℕ) :
    (places l ts dst).map Prod.fst = candidates l ts dst := by
  simp [places, Function.comp_def]

/-- Numbers that are pointwise below others with the same sum are the same. -/
theorem eq_of_sum_eq {ps : List (ℕ × ℕ)} (hle : ∀ p ∈ ps, p.2 ≤ p.1)
    (hsum : (ps.map Prod.fst).sum = (ps.map Prod.snd).sum) : ∀ p ∈ ps, p.2 = p.1 := by
  induction ps with
  | nil => simp
  | cons p ps ih =>
    have hrest : (ps.map Prod.snd).sum ≤ (ps.map Prod.fst).sum :=
      sum_le_sum fun q hq => hle q (mem_cons_of_mem p hq)
    have hp := hle p mem_cons_self
    simp only [map_cons, sum_cons] at hsum
    intro q hq
    rcases mem_cons.mp hq with rfl | hq
    · omega
    · exact ih (fun q hq => hle q (mem_cons_of_mem p hq)) (by omega) q hq

/-- Every entry before a visible edge to `dst` is visible. -/
def Dense (t : EdgeTable V) (src dst ts : ℕ) : Prop :=
  ∀ i ∈ candidates (t.outCsr.list src) ts dst, ∀ n ∈ (t.outCsr.list src).take i, n.timestamp ≤ ts

theorem dense_iff : t.Dense src dst ts ↔ ∀ p ∈ places (t.outCsr.list src) ts dst, p.2 = p.1 := by
  unfold Dense places
  simp only [List.mem_map, forall_exists_index, and_imp, forall_apply_eq_imp_iff₂]
  refine forall₂_congr fun i hi => ?_
  obtain ⟨n, hn, -⟩ := mem_candidates.mp hi
  exact ranked_iff_countP (List.getElem?_eq_some_iff.mp hn).1.le

/-- From `ts` on both views of `t'` are those of `t` without the edges from `src` to `dst`. -/
def Without (t t' : EdgeTable V) (src dst ts : ℕ) : Prop :=
  ∀ at', ts ≤ at' → at' < invalidTimestamp →
    (t'.outgoing at').Perm ((t.outgoing at').filter fun e => ¬ (e.1 = src ∧ e.2.1 = dst)) ∧
    (t'.incoming at').Perm ((t.incoming at').filter fun e => ¬ (e.1 = src ∧ e.2.1 = dst))

theorem Without.candidates_in (h : t.Without t' src dst ts) (hts : ts < invalidTimestamp) :
    candidates (t'.inCsr.list dst) ts src = [] := by
  apply eq_nil_iff_forall_not_mem.mpr
  intro j hj
  obtain ⟨n, hn, hvis, hnbr⟩ := mem_candidates.mp hj
  have hmem := MutableCsr.mem_view (mem_of_getElem? hn) hvis
  have hin : (src, dst, t'.readData n.data) ∈ t'.incoming ts :=
    mem_map.mpr ⟨_, hmem, by simp [hnbr]⟩
  have := (mem_filter.mp ((h ts le_rfl hts).2.mem_iff.mp hin)).2
  simp at this

theorem Without.candidates_out (h : t.Without t' src dst ts) (hts : ts < invalidTimestamp) :
    candidates (t'.outCsr.list src) ts dst = [] := by
  apply eq_nil_iff_forall_not_mem.mpr
  intro j hj
  obtain ⟨n, hn, hvis, hnbr⟩ := mem_candidates.mp hj
  have hmem := MutableCsr.mem_view (mem_of_getElem? hn) hvis
  have hout : (src, dst, t'.readData n.data) ∈ t'.outgoing ts :=
    mem_map.mpr ⟨_, hmem, by simp [hnbr]⟩
  have := (mem_filter.mp ((h ts le_rfl hts).1.mem_iff.mp hout)).2
  simp at this

/-- From `ts` on both views of `t'` are those of `t` without the edges in `gone`. -/
def Loses (t t' : EdgeTable V) (gone : ℕ → ℕ → Prop) [∀ v w, Decidable (gone v w)] (ts : ℕ) :
    Prop :=
  ∀ at', ts ≤ at' → at' < invalidTimestamp →
    (t'.outgoing at').Perm ((t.outgoing at').filter fun e => ¬ gone e.1 e.2.1) ∧
    (t'.incoming at').Perm ((t.incoming at').filter fun e => ¬ gone e.1 e.2.1)

theorem loses_of_killed {gone : ℕ → ℕ → Prop} [∀ v w, Decidable (gone v w)]
    {outs ins : List (ℕ × ℕ)} (hwf : t.WellFormed ts) (hkilled : Killed ts t t' outs ins)
    (houts : ∀ (v k : ℕ) n, (t.outCsr.list v)[k]? = some n → n.timestamp ≤ ts →
      ((v, k) ∈ outs ↔ gone v n.neighbor))
    (hins : ∀ (v k : ℕ) n, (t.inCsr.list v)[k]? = some n → n.timestamp ≤ ts →
      ((v, k) ∈ ins ↔ gone n.neighbor v)) : t.Loses t' gone ts := by
  have hmem : ∀ (ps : List (ℕ × ℕ)) (v k : ℕ),
      k ∈ (ps.filter fun p => p.1 = v).map Prod.snd ↔ (v, k) ∈ ps := by
    simp
  intro at' hat hinv
  constructor
  · have hview := MutableCsr.view_filter (q := fun e => decide (¬ gone e.1 e.2.1))
      hkilled.outSize fun v => (hkilled.outList v).filter_visible
        (hwf.outCurrent v) hat hinv
        fun j n hn hvis => by
          rw [hmem, houts v j n hn hvis]
          simp
    unfold outgoing
    rw [hview, hkilled.readData_eq, List.filter_map]
    rfl
  · have hview := MutableCsr.view_filter (q := fun e => decide (¬ gone e.2.1 e.1))
      hkilled.inSize fun v => (hkilled.inList v).filter_visible
        (hwf.inCurrent v) hat hinv
        fun j n hn hvis => by
          rw [hmem, hins v j n hn hvis]
          simp
    unfold incoming
    rw [hview, hkilled.readData_eq, List.filter_map]
    rfl

theorem without_of_killed (hwf : t.WellFormed ts) {ks js : List ℕ}
    (hkilled : Killed ts t t' (ks.map fun k => (src, k)) (js.map fun j => (dst, j)))
    (hks : ∀ k, k ∈ ks ↔ k ∈ candidates (t.outCsr.list src) ts dst)
    (hjs : ∀ j, j ∈ js ↔ j ∈ candidates (t.inCsr.list dst) ts src) : t.Without t' src dst ts := by
  have hpairs : ∀ (is : List ℕ) (v w k : ℕ),
      (v, k) ∈ is.map (fun i => (w, i)) ↔ v = w ∧ k ∈ is := by
    intro is v w k
    simp only [List.mem_map, Prod.mk.injEq]
    constructor
    · rintro ⟨i, hi, rfl, rfl⟩
      exact ⟨rfl, hi⟩
    · rintro ⟨rfl, hk⟩
      exact ⟨k, hk, rfl, rfl⟩
  change t.Loses t' (fun v w => v = src ∧ w = dst) ts
  refine loses_of_killed hwf hkilled ?_ ?_
  · intro v k n hn hvis
    rw [hpairs]
    refine and_congr_right fun hv => ?_
    subst hv
    rw [hks, mem_candidates]
    simp [hn, hvis]
  · intro v k n hn hvis
    rw [hpairs, and_comm (b := v = dst)]
    refine and_congr_right fun hv => ?_
    subst hv
    rw [hjs, mem_candidates]
    simp [hn, hvis]

variable [PropertyValue V]

/-- A search in the course of deletions: the entries that are still there compare as before. -/
theorem Killed.search_eq (past : Past) {t₀ : EdgeTable V} {outs ins : List (ℕ × ℕ)}
    (hkilled : Killed ts t₀ t outs ins) (hwf : t₀.WellFormed ts) (hts : ts < invalidTimestamp)
    (hdst : dst < t₀.inCsr.size) (hi : i ∈ candidates (t₀.outCsr.list src) ts dst)
    (houts : (src, i) ∉ outs) :
    ∃ n, (t.outCsr.list src)[i]? = some n ∧ n.timestamp ≤ ts ∧ n.neighbor = dst ∧
      t.searchInOffset past src i ts n = some ((pick (t₀.serves past src dst i)
        (candidates (t.inCsr.list dst) ts src)).getD int32Max) := by
  obtain ⟨n, hn₀, hvis, hnbr⟩ := mem_candidates.mp hi
  have hout : i ∉ (outs.filter fun p => p.1 = src).map Prod.snd := by
    simpa using houts
  have hn : (t.outCsr.list src)[i]? = some n := by
    rw [hkilled.outList src i, if_neg hout, hn₀]
  have hprobe : probeAt (t₀.outCsr.list src) (past.out src) i =
      some (probe (t.outCsr.list src) (past.out src) i n) := by
    rw [← (hkilled.outList src).probeAt_eq _ hout, probeAt, hn, map_some]
  have hfits : ∀ m ∈ t.inCsr.list dst, Fits t.properties m.data := by
    intro m hm
    obtain ⟨m₀, hm₀, hdata, -⟩ := (hkilled.inList dst).exists_mem hm
    rw [hkilled.properties_eq, hdata]
    exact hwf.inFits dst m₀ hm₀
  have hfit : Fits t.properties n.data := by
    rw [hkilled.properties_eq]
    exact hwf.outFits src n (mem_of_getElem? hn₀)
  refine ⟨n, hn, hvis, hnbr, ?_⟩
  rw [searchInOffset, hnbr, if_neg (by rw [hkilled.inSize]; omega), fuzzySearchOffset_eq hfits hfit]
  congr 2
  apply pick_congr
  intro c hc
  rw [(hkilled.inList dst).candidates_eq hts, mem_filter, decide_eq_true_eq] at hc
  rw [serves, hprobe, any_some, fitsAt, fitsAt, hkilled.properties_eq,
    (hkilled.inList dst).probeAt_eq _ hc.2]

/-- One round: the search picks an incoming entry and both ends are deleted, or it fails and
only the outgoing entry is deleted. -/
theorem deletePlaces_cons (past : Past) (rest : List (ℕ × ℕ)) {t₀ : EdgeTable V}
    {outs ins : List (ℕ × ℕ)} (hwf : t₀.WellFormed ts) (hts : ts < invalidTimestamp)
    (hkilled : Killed ts t₀ t outs ins) (hdst : dst < t₀.inCsr.size)
    (hi : i ∈ candidates (t₀.outCsr.list src) ts dst) (hki : k ≤ i) (houts : (src, i) ∉ outs) :
    match pick (t₀.serves past src dst i) (candidates (t.inCsr.list dst) ts src) with
    | some c => ∃ t₁, deletePlaces past src dst ts ((i, k) :: rest) t =
        deletePlaces past src dst ts rest t₁ ∧ Killed ts t t₁ [(src, k)] [(dst, c)]
    | none => ∃ e t₁, deletePlaces past src dst ts ((i, k) :: rest) t = some (.error e, t₁) ∧
        Killed ts t t₁ [(src, k)] [] := by
  obtain ⟨n, hn, -, -, hsearch⟩ := hkilled.search_eq past hwf hts hdst hi houts
  have hlt : k < (t.outCsr.list src).length := by
    have := (List.getElem?_eq_some_iff.mp hn).1
    omega
  have hround : deletePlaces past src dst ts ((i, k) :: rest) t =
      (deleteEdge src dst k ((pick (t₀.serves past src dst i)
        (candidates (t.inCsr.list dst) ts src)).getD int32Max) ts >>= fun _ =>
          deletePlaces past src dst ts rest) t := by
    rw [deletePlaces, Call.read_bind]
    simp [Call.bind_apply, Call.defined, hn, hsearch]
  split
  · next c hpick =>
    obtain ⟨m, hm, -⟩ := mem_candidates.mp (pick_mem hpick)
    obtain ⟨t₁, hdel, hkill⟩ := deleteEdge_killed hlt (List.getElem?_eq_some_iff.mp hm).1 ts
    refine ⟨t₁, ?_, hkill⟩
    rw [hround, hpick, getD_some, Call.bind_apply, hdel]
  · next hpick =>
    have hbound : (t.inCsr.list dst).length ≤ int32Max := by
      rw [(hkilled.inList dst).length_eq]
      exact hwf.inDegree dst
    obtain ⟨t₁, hdel, hkill⟩ := deleteEdge_fails hlt hbound ts
    refine ⟨.csr .outOfBound, t₁, ?_, hkill⟩
    rw [hround, hpick, getD_none, Call.bind_apply, hdel]

variable {t₀ : EdgeTable V} {outs ins ps : List (ℕ × ℕ)}

section

variable (hwf : t₀.WellFormed ts) (hts : ts < invalidTimestamp) (hkilled : Killed ts t₀ t outs ins)
  (hdst : dst < t₀.inCsr.size) (hps : ∀ p ∈ ps, p.1 ∈ candidates (t₀.outCsr.list src) ts dst)
  (hahead : Ahead src outs ps)
include hwf hts hkilled hdst hps hahead

theorem deletePlaces_ok {left : List ℕ} (hassign : assign (t₀.serves past src dst) (ps.map Prod.fst)
      (candidates (t.inCsr.list dst) ts src) = some left) :
    ∃ t', ∃ js : List ℕ, deletePlaces past src dst ts ps t = some (.ok (), t') ∧
      Killed ts t t' (ps.map fun p => (src, p.2)) (js.map fun j => (dst, j)) ∧
      candidates (t'.inCsr.list dst) ts src = left ∧
      ∀ j ∈ js, j ∈ candidates (t.inCsr.list dst) ts src := by
  induction ps generalizing t outs ins with
  | nil =>
    cases hassign
    exact ⟨t, [], rfl, .refl ts t, rfl, by simp⟩
  | cons p ps ih =>
    obtain ⟨i, k⟩ := p
    obtain ⟨c, hpick, hrest⟩ := bind_eq_some_iff.mp hassign
    have hstep := deletePlaces_cons past ps hwf hts hkilled hdst
      (hps (i, k) mem_cons_self) (hahead.2.1 (i, k) mem_cons_self)
      (hahead.2.2 (i, k) mem_cons_self)
    rw [hpick] at hstep
    obtain ⟨t₁, hrun, hkill⟩ := hstep
    rw [← hkill.candidates_erase hts] at hrest
    obtain ⟨t', js, hrun', hkill', hleft, hjs⟩ := ih (hkilled.trans hts hkill)
      (fun q hq => hps q (mem_cons_of_mem _ hq)) hahead.tail hrest
    refine ⟨t', c :: js, hrun.trans hrun', hkill.trans hts hkill', hleft, fun j hj => ?_⟩
    rcases mem_cons.mp hj with rfl | hj
    · exact pick_mem hpick
    · have hmem := hjs j hj
      rw [hkill.candidates_erase hts] at hmem
      exact mem_of_mem_erase hmem

theorem deletePlaces_fails (hlen : ps.length ≤ (candidates (t.inCsr.list dst) ts src).length)
    (hassign : assign (t₀.serves past src dst) (ps.map Prod.fst)
      (candidates (t.inCsr.list dst) ts src) = none) :
    ∃ e t', deletePlaces past src dst ts ps t = some (.error e, t') ∧
      candidates (t'.inCsr.list dst) ts src ≠ [] := by
  induction ps generalizing t outs ins with
  | nil => simp [assign] at hassign
  | cons p ps ih =>
    obtain ⟨i, k⟩ := p
    have hstep := deletePlaces_cons past ps hwf hts hkilled hdst
      (hps (i, k) mem_cons_self) (hahead.2.1 (i, k) mem_cons_self)
      (hahead.2.2 (i, k) mem_cons_self)
    rw [map_cons, assign] at hassign
    cases hpick : pick (t₀.serves past src dst i) (candidates (t.inCsr.list dst) ts src) with
    | none =>
      rw [hpick] at hstep
      obtain ⟨e, t₁, hrun, hkill⟩ := hstep
      refine ⟨e, t₁, hrun, ?_⟩
      rw [(hkill.inList dst).candidates_eq hts]
      intro hnil
      simp only [filter_nil, map_nil, not_mem_nil, not_false_eq_true, decide_true,
        filter_true] at hnil
      rw [hnil] at hlen
      simp at hlen
    | some c =>
      rw [hpick] at hstep hassign
      obtain ⟨t₁, hrun, hkill⟩ := hstep
      rw [bind_some, ← hkill.candidates_erase hts] at hassign
      obtain ⟨e, t', hrun', hleft⟩ := ih (hkilled.trans hts hkill)
        (fun q hq => hps q (mem_cons_of_mem _ hq)) hahead.tail (by
          rw [hkill.candidates_erase hts, length_erase_of_mem (pick_mem hpick)]
          rw [length_cons] at hlen
          omega) hassign
      exact ⟨e, t', hrun.trans hrun', hleft⟩

end

/-- Every visible edge to `dst` but the last finds more incoming entries that compare equal to
it than there are earlier edges that do. -/
def Answered (t : EdgeTable V) (past : Past) (src dst ts : ℕ) : Prop :=
  ∀ before i after, candidates (t.outCsr.list src) ts dst = before ++ i :: after → after ≠ [] →
    before.countP (fun j => t.alike past src j i) <
      (candidates (t.inCsr.list dst) ts src).countP (t.serves past src dst i)

theorem answered_of_length_le_one
    (h : (candidates (t.outCsr.list src) ts dst).length ≤ 1) : t.Answered past src dst ts := by
  intro before i after heq hafter
  have hpos := length_pos_of_ne_nil hafter
  rw [heq, length_append, length_cons] at h
  omega

theorem answered_iff [PartialEq V] (hwf : t.WellFormed ts) (hts : ts < invalidTimestamp) :
    t.Answered past src dst ts ↔ (assign (t.serves past src dst)
      (candidates (t.outCsr.list src) ts dst) (candidates (t.inCsr.list dst) ts src)).isSome :=
  (assign_isSome_iff (t.serves past src dst) (t.alike past src)
    (fun _ _ _ h => serves_eq_alike h) (hwf.length_candidates_eq hts src dst)).symm

/-- The rounds of `DeleteEdges` remove exactly the edges from `src` to `dst`. -/
theorem deletePlaces_iff [PartialEq V] (hwf : t.WellFormed ts) (hts : ts < invalidTimestamp)
    (hdst : dst < t.inCsr.size) :
    (∃ r t', deletePlaces past src dst ts (places (t.outCsr.list src) ts dst) t = some (r, t') ∧
      t.Without t' src dst ts) ↔ t.Dense src dst ts ∧ t.Answered past src dst ts := by
  set ps := places (t.outCsr.list src) ts dst with hpsdef
  have hps : ∀ p ∈ ps, p.1 ∈ candidates (t.outCsr.list src) ts dst := by
    intro p hp
    rw [← map_fst_places]
    exact mem_map_of_mem hp
  have hahead := ahead_places (t.outCsr.list src) ts dst src
  have hlen : ps.length = (candidates (t.inCsr.list dst) ts src).length := by
    rw [← hwf.length_candidates_eq hts src dst, ← map_fst_places, length_map]
  rw [answered_iff hwf hts, ← map_fst_places]
  constructor
  · rintro ⟨r, t', hrun, hwithout⟩
    cases hassign : assign (t.serves past src dst) (ps.map Prod.fst)
        (candidates (t.inCsr.list dst) ts src) with
    | none =>
      obtain ⟨e, t'', hrun', hleft⟩ := deletePlaces_fails hwf hts (.refl ts t) hdst hps hahead
        hlen.le hassign
      rw [hrun'] at hrun
      cases hrun
      exact absurd (hwithout.candidates_in hts) hleft
    | some left =>
      obtain ⟨t'', js, hrun', hkilled, -, -⟩ := deletePlaces_ok hwf hts (.refl ts t) hdst hps
        hahead hassign
      rw [hrun'] at hrun
      cases hrun
      refine ⟨dense_iff.mpr ?_, rfl⟩
      have hgone := hwithout.candidates_out hts
      rw [(hkilled.outList src).candidates_eq hts, ← map_fst_places] at hgone
      -- the deleted ranks cover the offsets, and no rank is above its offset
      have hcover : ps.map Prod.fst ⊆ ps.map Prod.snd := by
        intro i hi
        have hmem := filter_eq_nil_iff.mp hgone i hi
        simpa using hmem
      have hperm : (ps.map Prod.fst).Perm (ps.map Prod.snd) := by
        have hnodup : (ps.map Prod.fst).Nodup := by
          rw [map_fst_places]
          exact nodup_offsets _ _
        exact (hnodup.subperm hcover).perm_of_length_le (by simp)
      exact eq_of_sum_eq hahead.2.1 hperm.sum_eq
  · rintro ⟨hdense, hsome⟩
    obtain ⟨left, hassign⟩ := isSome_iff_exists.mp hsome
    obtain ⟨t', js, hrun, hkilled, hleft, hjs⟩ := deletePlaces_ok hwf hts (.refl ts t) hdst hps
      hahead hassign
    have hsnd : ps.map Prod.snd = candidates (t.outCsr.list src) ts dst := by
      rw [← map_fst_places]
      exact map_congr_left (dense_iff.mp hdense)
    have hkilled' : Killed ts t t' ((ps.map Prod.snd).map fun k => (src, k))
        (js.map fun j => (dst, j)) := by
      rw [List.map_map]
      exact hkilled
    have hall : ∀ j, j ∈ js ↔ j ∈ candidates (t.inCsr.list dst) ts src := by
      intro j
      refine ⟨hjs j, fun hj => ?_⟩
      have hnil : left = [] := by
        have := length_assign hassign
        rw [length_map, hlen] at this
        exact eq_nil_of_length_eq_zero (by omega)
      rw [(hkilled.inList dst).candidates_eq hts, hnil] at hleft
      simpa using filter_eq_nil_iff.mp hleft j hj
    exact ⟨_, t', hrun, without_of_killed hwf hkilled' (fun k => by rw [hsnd]) hall⟩

end EdgeTable

end Neug.Storage
