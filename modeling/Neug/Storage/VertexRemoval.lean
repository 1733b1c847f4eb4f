import Neug.Storage.EdgeRemoval

/-! `EdgeTable::DeleteVertex`: the walk over the list of a vertex in one CSR. Every visible entry
is deleted together with the entry that the search finds in the other CSR. -/
namespace Neug.Storage
open Neug.Lib List Option MutableCsr

variable {V : Type}

namespace EdgeTable

def Past.swap (past : Past) : Past := ⟨past.inn, past.out⟩
def swap (t : EdgeTable V) : EdgeTable V := { t with outCsr := t.inCsr, inCsr := t.outCsr }

def side (t : EdgeTable V) : Bool → EdgeTable V
  | true => t
  | false => t.swap

def Past.side (past : Past) : Bool → Past
  | true => past
  | false => past.swap

variable {t t' : EdgeTable V} {ts : ℕ} {outs ins : List (ℕ × ℕ)}

theorem Killed.swap (h : Killed ts t t' outs ins) : Killed ts t.swap t'.swap ins outs :=
  ⟨by rw [h.rest]; rfl, h.inSize, h.outSize, h.inList, h.outList⟩

theorem Paired.swap (h : t.Paired) : t.swap.Paired := fun v w => (h w v).symm

theorem WellFormed.swap (h : t.WellFormed ts) : t.swap.WellFormed ts :=
  ⟨h.paired.swap, h.inFits, h.outFits, h.inCurrent, h.outCurrent, h.inDegree, h.outDegree⟩

theorem WellFormed.side (h : t.WellFormed ts) (b : Bool) : (t.side b).WellFormed ts := by
  cases b with
  | true => exact h
  | false => exact h.swap

theorem outgoing_swap (t : EdgeTable V) (at' : ℕ) :
    t.swap.outgoing at' = (t.incoming at').map fun e => (e.2.1, e.1, e.2.2) := by
  unfold outgoing incoming
  rw [List.map_map]
  rfl

theorem incoming_swap (t : EdgeTable V) (at' : ℕ) :
    t.swap.incoming at' = (t.outgoing at').map fun e => (e.2.1, e.1, e.2.2) := by
  unfold outgoing incoming
  rw [List.map_map]
  rfl

theorem Loses.swap {gone : ℕ → ℕ → Prop} [∀ v w, Decidable (gone v w)] (h : t.Loses t' gone ts) :
    t.swap.Loses t'.swap (fun v w => gone w v) ts := by
  intro at' hat hinv
  obtain ⟨hout, hin⟩ := h at' hat hinv
  rw [outgoing_swap, outgoing_swap, incoming_swap, incoming_swap, List.filter_map, List.filter_map]
  exact ⟨hin.map _, hout.map _⟩

variable {t₀ : EdgeTable V} {v i w : ℕ} {n : Nbr (EdgeData V)}

theorem Killed.getElem?_eq (h : Killed ts t t' outs ins) (hi : (v, i) ∉ outs) :
    (t'.outCsr.list v)[i]? = (t.outCsr.list v)[i]? := by
  rw [h.outList v i, if_neg (by simpa using hi)]

theorem Killed.of_visible (h : Killed ts t₀ t outs ins) (hts : ts < invalidTimestamp)
    (hn : (t.outCsr.list v)[i]? = some n) (hvis : n.timestamp ≤ ts) :
    (v, i) ∉ outs ∧ (t₀.outCsr.list v)[i]? = some n := by
  have hlist := h.outList v i
  rw [hn] at hlist
  by_cases hmem : (v, i) ∈ outs
  · rw [if_pos (by simpa using hmem)] at hlist
    obtain ⟨m, -, rfl⟩ := map_eq_some_iff.mp hlist.symm
    exact absurd hvis (not_le.mpr (m.not_visible_kill hts))
  · rw [if_neg (by simpa using hmem)] at hlist
    exact ⟨hmem, hlist.symm⟩

theorem WellFormed.lt_inSize (h : t.WellFormed ts) (hts : ts < invalidTimestamp)
    (hi : i ∈ candidates (t.outCsr.list v) ts w) : w < t.inCsr.size := by
  have hpos := length_pos_of_mem hi
  rw [h.length_candidates_eq hts] at hpos
  obtain ⟨m, hm, -⟩ := mem_candidates.mp (getElem_mem hpos)
  exact lt_size_of_getElem? hm

/-- The rounds of a walk that lead to `w`. -/
def roundsTo (l : List (Nbr (EdgeData V))) (ts w : ℕ) (is : List ℕ) : List ℕ :=
  is.filter fun i => (l[i]?).any fun n => n.visible ts && n.neighbor == w

theorem roundsTo_range (l : List (Nbr (EdgeData V))) (ts w : ℕ) :
    roundsTo l ts w (range l.length) = candidates l ts w := by
  rw [candidates, offsets_eq_filter, roundsTo]

theorem Killed.filter_rounds {vid : ℕ} {rest : List ℕ} (h : Killed ts t t' [(vid, i)] ins)
    (hi : i ∉ rest) (p : Nbr (EdgeData V) → Bool) :
    rest.filter (fun k => ((t'.outCsr.list vid)[k]?).any p) =
      rest.filter fun k => ((t.outCsr.list vid)[k]?).any p := by
  apply filter_congr
  intro k hk
  have hki : k ≠ i := fun h => hi (h ▸ hk)
  rw [h.outList vid k, if_neg (by simp [hki])]

section

variable [PropertyValue V]

/-- The walk of `DeleteVertex` from one side. -/
def walk (past : Past) (b : Bool) (vid ts : ℕ) (is : List ℕ) : EdgeCall V Unit :=
  match b with
  | true => deleteOutEdges past vid ts is
  | false => deleteInEdges past vid ts is

theorem deleteVertex_eq (past : Past) (b : Bool) (vid ts : ℕ) (t : EdgeTable V) :
    deleteVertex past b vid ts t = if (t.side b).outCsr.size ≤ vid then none
      else walk past b vid ts (range ((t.side b).outCsr.list vid).length) t := by
  by_cases h : (t.side b).outCsr.size ≤ vid
  · rw [if_pos h]
    cases b with
    | true => exact congrFun (if_pos h) t
    | false => exact congrFun (if_pos h) t
  · rw [if_neg h]
    cases b with
    | true => exact congrFun (if_neg h) t
    | false => exact congrFun (if_neg h) t

variable {vid : ℕ}

theorem walk_skip (past : Past) (b : Bool) (rest : List ℕ)
    (hn : ((t.side b).outCsr.list vid)[i]? = some n) (hvis : ¬ n.timestamp ≤ ts) :
    walk past b vid ts (i :: rest) t = walk past b vid ts rest t := by
  cases b with
  | true =>
    simp only [side] at hn
    simp [walk, deleteOutEdges, Call.bind_apply, Call.read, Call.defined, hn, if_neg hvis]
  | false =>
    simp only [side, swap] at hn
    simp [walk, deleteInEdges, Call.bind_apply, Call.read, Call.defined, hn, if_neg hvis]

/-- One round at a visible entry: the search picks an entry of the other CSR and both are
deleted, or it fails and so does the walk. -/
theorem walk_cons (past : Past) (b : Bool) (rest : List ℕ) (hwf : (t₀.side b).WellFormed ts)
    (hts : ts < invalidTimestamp) (hkilled : Killed ts (t₀.side b) (t.side b) outs ins)
    (hn : ((t.side b).outCsr.list vid)[i]? = some n) (hvis : n.timestamp ≤ ts) :
    match pick ((t₀.side b).serves (past.side b) vid n.neighbor i)
      (candidates ((t.side b).inCsr.list n.neighbor) ts vid) with
    | some c => ∃ t₁, walk past b vid ts (i :: rest) t = walk past b vid ts rest t₁ ∧
        Killed ts (t.side b) (t₁.side b) [(vid, i)] [(n.neighbor, c)]
    | none => ∃ e t₁, walk past b vid ts (i :: rest) t = some (.error e, t₁) := by
  obtain ⟨hout, hn₀⟩ := hkilled.of_visible hts hn hvis
  have hi : i ∈ candidates ((t₀.side b).outCsr.list vid) ts n.neighbor :=
    mem_candidates.mpr ⟨n, hn₀, hvis, rfl⟩
  have hsize : n.neighbor < (t₀.side b).inCsr.size := hwf.lt_inSize hts hi
  obtain ⟨n', hn', -, -, hsearch⟩ := hkilled.search_eq (past.side b) hwf hts hsize hi hout
  obtain rfl := some.inj (hn.symm.trans hn')
  have hlt : i < ((t.side b).outCsr.list vid).length := (List.getElem?_eq_some_iff.mp hn).1
  split
  · next c hpick =>
    obtain ⟨m, hm, -⟩ := mem_candidates.mp (pick_mem hpick)
    have hc := (List.getElem?_eq_some_iff.mp hm).1
    rw [hpick] at hsearch
    cases b with
    | true =>
      obtain ⟨t₁, hdel, hkill⟩ := deleteEdge_killed (t := t) hlt hc ts
      refine ⟨t₁, ?_, hkill⟩
      simp only [side, Past.side] at hn hsearch
      simp [walk, deleteOutEdges, Call.bind_apply, Call.read, Call.defined, hn, if_pos hvis, hsearch, hdel]
    | false =>
      obtain ⟨t₁, hdel, hkill⟩ := deleteEdge_killed hc hlt ts
      refine ⟨t₁, ?_, hkill.swap⟩
      have hfound : t.searchOutOffset past vid i ts n = some c := hsearch
      simp only [side, swap] at hn
      simp [walk, deleteInEdges, Call.bind_apply, Call.read, Call.defined, hn, if_pos hvis, hfound, hdel]
  · next hpick =>
    rw [hpick] at hsearch
    have hbound : ((t.side b).inCsr.list n.neighbor).length ≤ int32Max := by
      rw [(hkilled.inList n.neighbor).length_eq]
      exact hwf.inDegree n.neighbor
    cases b with
    | true =>
      obtain ⟨t₁, hdel, -⟩ := deleteEdge_fails (t := t) hlt hbound ts
      refine ⟨.csr .outOfBound, t₁, ?_⟩
      simp only [side, Past.side] at hn hsearch
      simp [walk, deleteOutEdges, Call.bind_apply, Call.read, Call.defined, hn, if_pos hvis, hsearch, hdel]
    | false =>
      have hfound : t.searchOutOffset past vid i ts n = some int32Max := hsearch
      have hdel : deleteEdge n.neighbor vid int32Max i ts t =
          some (.error (.csr .outOfBound), t) := by
        simp [deleteEdge, Call.bind_apply, onOut, MutableCsr.deleteEdge, getElem?_eq_none (l := t.outCsr.list n.neighbor) hbound]
      refine ⟨.csr .outOfBound, t, ?_⟩
      simp only [side, swap] at hn
      simp [walk, deleteInEdges, Call.bind_apply, Call.read, Call.defined, hn, if_pos hvis, hfound, hdel]

/-- The searches of a walk in the list of `w`, one after another: what they leave over. -/
def searches (t₀ t : EdgeTable V) (past : Past) (vid ts : ℕ) (is : List ℕ) (w : ℕ) :
    Option (List ℕ) :=
  assign (t₀.serves past vid w) (roundsTo (t.outCsr.list vid) ts w is)
    (candidates (t.inCsr.list w) ts vid)

theorem searches_skip (past : Past) (rest : List ℕ) (hn : (t.outCsr.list vid)[i]? = some n)
    (hvis : ¬ n.timestamp ≤ ts) (w : ℕ) :
    searches t₀ t past vid ts (i :: rest) w = searches t₀ t past vid ts rest w := by
  unfold searches roundsTo
  rw [filter_cons_of_neg (by simp [hn, Nbr.visible, hvis])]

theorem searches_first (past : Past) (rest : List ℕ) (hn : (t.outCsr.list vid)[i]? = some n)
    (hvis : n.timestamp ≤ ts) : searches t₀ t past vid ts (i :: rest) n.neighbor =
      (pick (t₀.serves past vid n.neighbor i) (candidates (t.inCsr.list n.neighbor) ts vid)).bind
        fun c => assign (t₀.serves past vid n.neighbor)
          (roundsTo (t.outCsr.list vid) ts n.neighbor rest)
          ((candidates (t.inCsr.list n.neighbor) ts vid).erase c) := by
  unfold searches roundsTo
  rw [filter_cons_of_pos (by simp [hn, Nbr.visible, hvis]), assign]

theorem searches_cons {t₁ : EdgeTable V} {c : ℕ} {rest : List ℕ} (past : Past)
    (hts : ts < invalidTimestamp) (hi : i ∉ rest) (hn : (t.outCsr.list vid)[i]? = some n)
    (hvis : n.timestamp ≤ ts) (hpick : pick (t₀.serves past vid n.neighbor i)
      (candidates (t.inCsr.list n.neighbor) ts vid) = some c)
    (hkill : Killed ts t t₁ [(vid, i)] [(n.neighbor, c)]) (w : ℕ) :
    searches t₀ t past vid ts (i :: rest) w = searches t₀ t₁ past vid ts rest w := by
  have hrounds : roundsTo (t₁.outCsr.list vid) ts w rest =
      roundsTo (t.outCsr.list vid) ts w rest := hkill.filter_rounds hi _
  by_cases hw : w = n.neighbor
  · subst hw
    rw [searches_first past rest hn hvis, hpick, bind_some, searches, hrounds,
      hkill.candidates_erase hts]
  · unfold searches
    rw [hrounds]
    have hfirst : roundsTo (t.outCsr.list vid) ts w (i :: rest) =
        roundsTo (t.outCsr.list vid) ts w rest :=
      filter_cons_of_neg (by simp [hn, Ne.symm hw])
    have hsame : candidates (t₁.inCsr.list w) ts vid = candidates (t.inCsr.list w) ts vid := by
      rw [(hkill.inList w).candidates_eq hts]
      simp [Ne.symm hw]
    rw [hfirst, hsame]

section

variable (past : Past) (b : Bool) (hwf : (t₀.side b).WellFormed ts) (hts : ts < invalidTimestamp)
  (hkilled : Killed ts (t₀.side b) (t.side b) outs ins)
include past b hwf hts hkilled

theorem walk_ok {is : List ℕ}
    (hnodup : is.Nodup) (his : ∀ i ∈ is, i < ((t.side b).outCsr.list vid).length)
    {left : ℕ → List ℕ}
    (hleft : ∀ w, searches (t₀.side b) (t.side b) (past.side b) vid ts is w = some (left w)) :
    ∃ t' js, walk past b vid ts is t = some (.ok (), t') ∧
      Killed ts (t.side b) (t'.side b)
        ((is.filter fun i => (((t.side b).outCsr.list vid)[i]?).any (Nbr.visible ts)).map
          fun i => (vid, i)) js ∧
      (∀ w, candidates ((t'.side b).inCsr.list w) ts vid = left w) ∧
      ∀ p ∈ js, p.2 ∈ candidates ((t.side b).inCsr.list p.1) ts vid := by
  induction is generalizing t outs ins with
  | nil =>
    refine ⟨t, [], by cases b <;> rfl, .refl ts _, fun w => ?_, by simp⟩
    exact some.inj (hleft w)
  | cons i is ih =>
    obtain ⟨hi, hnodup⟩ := nodup_cons.mp hnodup
    have hlt := his i mem_cons_self
    have hn : ((t.side b).outCsr.list vid)[i]? = some ((t.side b).outCsr.list vid)[i] :=
      getElem?_eq_getElem hlt
    have his' := fun k hk => his k (mem_cons_of_mem i hk)
    generalize ((t.side b).outCsr.list vid)[i] = n at hn
    by_cases hvis : n.timestamp ≤ ts
    · have hfirst := (searches_first _ is hn hvis).symm.trans (hleft n.neighbor)
      obtain ⟨c, hpick, -⟩ := bind_eq_some_iff.mp hfirst
      have hstep := walk_cons past b is hwf hts hkilled hn hvis
      rw [hpick] at hstep
      obtain ⟨t₁, hrun, hkill⟩ := hstep
      simp only [searches_cons _ hts hi hn hvis hpick hkill] at hleft
      obtain ⟨t', js, hrun', hkill', hcand, hjs⟩ := ih (hkilled.trans hts hkill) hnodup
        (fun k hk => by rw [(hkill.outList vid).length_eq]; exact his' k hk) hleft
      refine ⟨t', (n.neighbor, c) :: js, hrun.trans hrun', ?_, hcand, fun p hp => ?_⟩
      · have hall := hkill.trans hts hkill'
        rw [hkill.filter_rounds hi] at hall
        rw [filter_cons_of_pos (by simp [hn, Nbr.visible, hvis])]
        exact hall
      · rcases mem_cons.mp hp with rfl | hp
        · exact pick_mem hpick
        · have hmem := hjs p hp
          rw [(hkill.inList p.1).candidates_eq hts] at hmem
          exact mem_of_mem_filter hmem
    · simp only [searches_skip _ _ hn hvis] at hleft
      obtain ⟨t', js, hrun, hkill, hcand, hjs⟩ := ih hkilled hnodup his' hleft
      refine ⟨t', js, (walk_skip past b is hn hvis).trans hrun, ?_, hcand, hjs⟩
      rw [filter_cons_of_neg (by simp [hn, Nbr.visible, hvis])]
      exact hkill

theorem walk_fails {is : List ℕ}
    (hnodup : is.Nodup) (his : ∀ i ∈ is, i < ((t.side b).outCsr.list vid).length)
    (hnone : ∃ w, searches (t₀.side b) (t.side b) (past.side b) vid ts is w = none)
    (t' : EdgeTable V) : walk past b vid ts is t ≠ some (.ok (), t') := by
  induction is generalizing t outs ins with
  | nil =>
    obtain ⟨w, hw⟩ := hnone
    simp [searches, roundsTo, assign] at hw
  | cons i is ih =>
    obtain ⟨hi, hnodup⟩ := nodup_cons.mp hnodup
    have hlt := his i mem_cons_self
    have hn : ((t.side b).outCsr.list vid)[i]? = some ((t.side b).outCsr.list vid)[i] :=
      getElem?_eq_getElem hlt
    have his' := fun k hk => his k (mem_cons_of_mem i hk)
    generalize ((t.side b).outCsr.list vid)[i] = n at hn
    by_cases hvis : n.timestamp ≤ ts
    · have hstep := walk_cons past b is hwf hts hkilled hn hvis
      cases hpick : pick ((t₀.side b).serves (past.side b) vid n.neighbor i)
          (candidates ((t.side b).inCsr.list n.neighbor) ts vid) with
      | none =>
        rw [hpick] at hstep
        obtain ⟨e, t₁, hrun⟩ := hstep
        rw [hrun]
        simp
      | some c =>
        rw [hpick] at hstep
        obtain ⟨t₁, hrun, hkill⟩ := hstep
        simp only [searches_cons _ hts hi hn hvis hpick hkill] at hnone
        rw [hrun]
        exact ih (hkilled.trans hts hkill) hnodup
          (fun k hk => by rw [(hkill.outList vid).length_eq]; exact his' k hk) hnone
    · simp only [searches_skip _ _ hn hvis] at hnone
      rw [walk_skip past b is hn hvis]
      exact ih hkilled hnodup his' hnone

theorem deleteVertex_isOk_iff (vid : ℕ) : (∃ t', deleteVertex past b vid ts t = some (.ok (), t')) ↔
      vid < (t.side b).outCsr.size ∧ ∀ w, (assign ((t₀.side b).serves (past.side b) vid w)
        (candidates ((t.side b).outCsr.list vid) ts w)
        (candidates ((t.side b).inCsr.list w) ts vid)).isSome := by
  have hsearches : ∀ w, searches (t₀.side b) (t.side b) (past.side b) vid ts
      (range ((t.side b).outCsr.list vid).length) w =
        assign ((t₀.side b).serves (past.side b) vid w)
          (candidates ((t.side b).outCsr.list vid) ts w)
          (candidates ((t.side b).inCsr.list w) ts vid) := by
    intro w
    rw [searches, roundsTo_range]
  have his : ∀ i ∈ range ((t.side b).outCsr.list vid).length,
      i < ((t.side b).outCsr.list vid).length := fun i hi => mem_range.mp hi
  rw [deleteVertex_eq]
  by_cases hsize : (t.side b).outCsr.size ≤ vid
  · simp [hsize]
  · simp only [if_neg hsize, not_le.mp hsize, true_and, ← hsearches]
    constructor
    · rintro ⟨t', hrun⟩ w
      by_contra hnone
      rw [not_isSome_iff_eq_none] at hnone
      exact walk_fails past b hwf hts hkilled nodup_range his ⟨w, hnone⟩ t' hrun
    · intro hsome
      choose left hleft using fun w => isSome_iff_exists.mp (hsome w)
      obtain ⟨t', -, hrun, -⟩ := walk_ok past b hwf hts hkilled nodup_range his hleft
      exact ⟨t', hrun⟩

end

/-- All visible entries of the list of `vid` were deleted, and their other ends. -/
def Cleared (ts : ℕ) (t t' : EdgeTable V) (vid : ℕ) (outs ins : List (ℕ × ℕ)) : Prop :=
  Killed ts t t' outs ins ∧
    (∀ (v k : ℕ) n, (t.outCsr.list v)[k]? = some n → n.timestamp ≤ ts →
      ((v, k) ∈ outs ↔ v = vid)) ∧
    ∀ (v k : ℕ) n, (t.inCsr.list v)[k]? = some n → n.timestamp ≤ ts →
      ((v, k) ∈ ins ↔ n.neighbor = vid)

theorem deleteVertex_cleared {past : Past} {b : Bool} (hwf : (t₀.side b).WellFormed ts)
    (hts : ts < invalidTimestamp) (hkilled : Killed ts (t₀.side b) (t.side b) outs ins)
    (hlen : ∀ w, (candidates ((t.side b).outCsr.list vid) ts w).length =
      (candidates ((t.side b).inCsr.list w) ts vid).length)
    (hrun : deleteVertex past b vid ts t = some (.ok (), t')) :
    ∃ outs' ins', Cleared ts (t.side b) (t'.side b) vid outs' ins' := by
  obtain ⟨hsize, hsome⟩ := (deleteVertex_isOk_iff past b hwf hts hkilled vid).mp ⟨t', hrun⟩
  choose left hleft using fun w => isSome_iff_exists.mp (hsome w)
  obtain ⟨t'', js, hrun', hkill, hcand, hjs⟩ := walk_ok past b hwf hts hkilled
    nodup_range (fun i hi => mem_range.mp hi)
    (fun w => by rw [searches, roundsTo_range]; exact hleft w)
  rw [deleteVertex_eq, if_neg (not_le.mpr hsize), hrun'] at hrun
  cases hrun
  refine ⟨_, js, hkill, fun v k n hn hvis => ?_, fun v k n hn hvis => ?_⟩
  · simp only [List.mem_map, mem_filter, mem_range, Prod.mk.injEq]
    constructor
    · rintro ⟨i, -, hv, -⟩
      exact hv.symm
    · rintro rfl
      have hlt := (List.getElem?_eq_some_iff.mp hn).1
      exact ⟨k, ⟨hlt, by simp [hn, Nbr.visible, hvis]⟩, rfl, rfl⟩
  · constructor
    · intro hmem
      obtain ⟨m, hm, -, hnbr⟩ := mem_candidates.mp (hjs (v, k) hmem)
      obtain rfl := some.inj (hn.symm.trans hm)
      exact hnbr
    · intro hnbr
      -- as many entries were taken as there are, so none is left
      have hnil : left v = [] := by
        have := length_assign (hleft v)
        rw [hlen v] at this
        exact eq_nil_of_length_eq_zero (by omega)
      have hleftv := hcand v
      rw [(hkill.inList v).candidates_eq hts, hnil] at hleftv
      have hk : k ∈ candidates ((t.side b).inCsr.list v) ts vid :=
        mem_candidates.mpr ⟨n, hn, hvis, hnbr⟩
      simpa using filter_eq_nil_iff.mp hleftv k hk

section

variable {gone gone' : ℕ → ℕ → Prop} [∀ v w, Decidable (gone v w)]
  [∀ v w, Decidable (gone' v w)] {past : Past}

omit [PropertyValue V] in
theorem loses_congr (h : ∀ v w, gone v w ↔ gone' v w) :
    t.Loses t' gone ts ↔ t.Loses t' gone' ts := by
  simp [Loses, h]

omit [PropertyValue V] in
theorem Loses.eq_nil (h : t.Loses t' gone ts) (hts : ts < invalidTimestamp) (hgone : gone v w) :
    candidates (t'.outCsr.list v) ts w = [] := by
  apply eq_nil_iff_forall_not_mem.mpr
  intro k hk
  obtain ⟨n, hn, hvis, hnbr⟩ := mem_candidates.mp hk
  have hout : (v, w, t'.readData n.data) ∈ t'.outgoing ts := mem_map.mpr
    ⟨_, mem_view (mem_of_getElem? hn) hvis, by simp [hnbr]⟩
  have := (mem_filter.mp ((h ts le_rfl hts).1.mem_iff.mp hout)).2
  simp [hgone] at this

omit [PropertyValue V] in
theorem Loses.ne_nil (h : t.Loses t' gone ts) (hts : ts < invalidTimestamp) (hgone : ¬ gone v w)
    (hne : candidates (t.outCsr.list v) ts w ≠ []) : candidates (t'.outCsr.list v) ts w ≠ [] := by
  obtain ⟨k, hk⟩ := exists_mem_of_ne_nil _ hne
  obtain ⟨n, hn, hvis, hnbr⟩ := mem_candidates.mp hk
  have hout : (v, w, t.readData n.data) ∈ t.outgoing ts := mem_map.mpr
    ⟨_, mem_view (mem_of_getElem? hn) hvis, by simp [hnbr]⟩
  have hout' : (v, w, t.readData n.data) ∈ t'.outgoing ts :=
    (h ts le_rfl hts).1.mem_iff.mpr (mem_filter.mpr ⟨hout, by simpa using hgone⟩)
  obtain ⟨⟨v', w', d⟩, he, heq⟩ := mem_map.mp hout'
  obtain ⟨m, hm, hmvis, hdata⟩ := exists_of_mem_view he
  obtain ⟨rfl, rfl, -⟩ : v' = v ∧ w' = w ∧ _ := by simpa using heq
  obtain ⟨j, hj⟩ := getElem?_of_mem hm
  exact ne_nil_of_mem (mem_candidates.mpr ⟨m, hj, hmvis, (Prod.mk.inj hdata).1.symm⟩)

/-- What a walk from the wrong side needs: the vertex number has a list there, every visible edge
has the number at both ends or at none, and the searches succeed. -/
def Crossed (t : EdgeTable V) (past : Past) (vid ts : ℕ) : Prop :=
  vid < t.outCsr.size ∧ (∀ v w, candidates (t.outCsr.list v) ts w ≠ [] → (v = vid ↔ w = vid)) ∧
    t.Answered past vid vid ts

/-- A walk over the sources removes exactly the edges to a destination of the same number. -/
theorem deleteVertex_crossed_iff [PartialEq V] (b : Bool) (hwf : t.WellFormed ts)
    (hts : ts < invalidTimestamp) : (∃ t', deleteVertex past b vid ts t = some (.ok (), t') ∧
      (t.side b).Loses (t'.side b) (fun _ w => w = vid) ts) ↔
      (t.side b).Crossed (past.side b) vid ts := by
  have hwf' := hwf.side b
  have hok := deleteVertex_isOk_iff past b hwf' hts (.refl ts (t.side b)) vid
  have hlen := hwf'.length_candidates_eq hts vid
  constructor
  · rintro ⟨t', hrun, hloses⟩
    obtain ⟨hsize, hsome⟩ := hok.mp ⟨t', hrun⟩
    obtain ⟨outs, ins, hkill, houts, -⟩ :=
      deleteVertex_cleared hwf' hts (.refl ts (t.side b)) hlen hrun
    refine ⟨hsize, fun v w hne => ?_, (answered_iff hwf' hts).mpr (hsome vid)⟩
    have hcand := (hkill.outList v).candidates_eq hts w
    constructor
    · rintro rfl
      by_contra hw
      refine hloses.ne_nil hts hw hne ?_
      rw [hcand]
      apply filter_eq_nil_iff.mpr
      intro k hk
      obtain ⟨n, hn, hvis, -⟩ := mem_candidates.mp hk
      simpa using (houts v k n hn hvis).mpr rfl
    · rintro rfl
      by_contra hv
      have hnil := hloses.eq_nil (v := v) hts rfl
      rw [hcand] at hnil
      obtain ⟨k, hk⟩ := exists_mem_of_ne_nil _ hne
      obtain ⟨n, hn, hvis, -⟩ := mem_candidates.mp hk
      have hmem := filter_eq_nil_iff.mp hnil k hk
      exact hv ((houts v k n hn hvis).mp (by simpa using hmem))
  · rintro ⟨hsize, hcross, hanswered⟩
    have hnil : ∀ w, w ≠ vid → candidates ((t.side b).outCsr.list vid) ts w = [] := by
      intro w hw
      by_contra hne
      exact hw ((hcross vid w hne).mp rfl)
    obtain ⟨t', hrun⟩ := hok.mpr ⟨hsize, fun w => by
      by_cases hw : w = vid
      · subst hw
        exact (answered_iff hwf' hts).mp hanswered
      · rw [hnil w hw]
        rfl⟩
    obtain ⟨outs, ins, hkill, houts, hins⟩ :=
      deleteVertex_cleared hwf' hts (.refl ts (t.side b)) hlen hrun
    refine ⟨t', hrun, loses_of_killed hwf' hkill (fun v k n hn hvis => ?_) fun v k n hn hvis => ?_⟩
    · have hne := ne_nil_of_mem (mem_candidates.mpr ⟨n, hn, hvis, rfl⟩)
      exact (houts v k n hn hvis).trans (hcross v n.neighbor hne)
    · have hk : k ∈ candidates ((t.side b).inCsr.list v) ts n.neighbor :=
        mem_candidates.mpr ⟨n, hn, hvis, rfl⟩
      have hpos := length_pos_of_mem hk
      rw [← hwf'.length_candidates_eq hts] at hpos
      exact (hins v k n hn hvis).trans (hcross n.neighbor v (ne_nil_of_length_pos hpos))

omit [PropertyValue V] in
/-- After a walk over the outgoing list of `vid`, the other edges to `vid` are as before. -/
theorem Cleared.candidates_eq (h : Cleared ts t t' vid outs ins) (hts : ts < invalidTimestamp)
    (v : ℕ) : candidates (t'.inCsr.list vid) ts v =
      (if v = vid then [] else candidates (t.inCsr.list vid) ts v) ∧
    candidates (t'.outCsr.list v) ts vid =
      if v = vid then [] else candidates (t.outCsr.list v) ts vid := by
  obtain ⟨hkill, houts, hins⟩ := h
  rw [(hkill.inList vid).candidates_eq hts, (hkill.outList v).candidates_eq hts]
  by_cases hv : v = vid
  · rw [if_pos hv, if_pos hv]
    constructor
    all_goals
      apply filter_eq_nil_iff.mpr
      intro k hk
      obtain ⟨n, hn, hvis, hnbr⟩ := mem_candidates.mp hk
    · simpa using (hins vid k n hn hvis).mpr (hnbr.trans hv)
    · simpa using (houts v k n hn hvis).mpr hv
  · rw [if_neg hv, if_neg hv]
    constructor
    all_goals
      apply filter_eq_self.mpr
      intro k hk
      obtain ⟨n, hn, hvis, hnbr⟩ := mem_candidates.mp hk
    · simpa using fun hmem => hv (hnbr.symm.trans ((hins vid k n hn hvis).mp hmem))
    · simpa using fun hmem => hv ((houts v k n hn hvis).mp hmem)

def Surrounded (t : EdgeTable V) (past : Past) (vid ts : ℕ) : Prop :=
  vid < t.outCsr.size ∧ vid < t.inCsr.size ∧ (∀ w, t.Answered past vid w ts) ∧
    ∀ v, v ≠ vid → t.swap.Answered past.swap vid v ts

theorem deleteVertex_both_iff [PartialEq V] (hwf : t.WellFormed ts) (hts : ts < invalidTimestamp) :
    (∃ t₁ t₂, deleteVertex past true vid ts t = some (.ok (), t₁) ∧
      deleteVertex past false vid ts t₁ = some (.ok (), t₂) ∧
      t.Loses t₂ (fun v w => v = vid ∨ w = vid) ts) ↔ t.Surrounded past vid ts := by
  have hok := deleteVertex_isOk_iff past true hwf hts (.refl ts t) vid
  -- the second walk meets the edges that come from other vertices
  have hsecond : ∀ t₁ outs ins, Cleared ts t t₁ vid outs ins →
      ((∃ t₂, deleteVertex past false vid ts t₁ = some (.ok (), t₂)) ↔
        vid < t.inCsr.size ∧ ∀ v, v ≠ vid → t.swap.Answered past.swap vid v ts) := by
    intro t₁ outs ins hcleared
    rw [deleteVertex_isOk_iff past false hwf.swap hts hcleared.1.swap vid]
    refine and_congr (by rw [← hcleared.1.inSize]; rfl) (forall_congr' fun v => ?_)
    obtain ⟨hin, hout⟩ := hcleared.candidates_eq hts v
    change (assign _ (candidates (t₁.inCsr.list vid) ts v)
      (candidates (t₁.outCsr.list v) ts vid)).isSome ↔ _
    rw [hin, hout, answered_iff hwf.swap hts]
    by_cases hv : v = vid
    · simp [hv, assign]
    · simp only [hv, ne_eq, not_false_eq_true, forall_const]
      rfl
  constructor
  · rintro ⟨t₁, t₂, hrun, hrun', -⟩
    obtain ⟨hsize, hsome⟩ := hok.mp ⟨t₁, hrun⟩
    obtain ⟨outs, ins, hcleared⟩ := deleteVertex_cleared (b := true) hwf hts (.refl ts t)
      (hwf.length_candidates_eq hts vid) hrun
    obtain ⟨hsize', hanswered⟩ := (hsecond t₁ outs ins hcleared).mp ⟨t₂, hrun'⟩
    exact ⟨hsize, hsize', fun w => (answered_iff hwf hts).mpr (hsome w), hanswered⟩
  · rintro ⟨hsize, hsize', hanswered, hanswered'⟩
    obtain ⟨t₁, hrun⟩ := hok.mpr ⟨hsize, fun w => (answered_iff hwf hts).mp (hanswered w)⟩
    obtain ⟨outs, ins, hcleared⟩ := deleteVertex_cleared (b := true) hwf hts (.refl ts t)
      (hwf.length_candidates_eq hts vid) hrun
    change Cleared ts t t₁ vid outs ins at hcleared
    obtain ⟨t₂, hrun'⟩ := (hsecond t₁ outs ins hcleared).mpr ⟨hsize', hanswered'⟩
    have hlen : ∀ v, (candidates (t₁.inCsr.list vid) ts v).length =
        (candidates (t₁.outCsr.list v) ts vid).length := by
      intro v
      obtain ⟨hin, hout⟩ := hcleared.candidates_eq hts v
      rw [hin, hout]
      by_cases hv : v = vid
      · simp [hv]
      · rw [if_neg hv, if_neg hv, hwf.length_candidates_eq hts]
    have hkill : Killed ts (t.side false) (t₁.side false) ins outs := hcleared.1.swap
    obtain ⟨outs', ins', hkill', houts', hins'⟩ :=
      deleteVertex_cleared (hwf.side false) hts hkill hlen hrun'
    refine ⟨t₁, t₂, hrun, hrun', loses_of_killed hwf (hcleared.1.trans hts hkill'.swap)
      (fun v k n hn hvis => ?_) fun v k n hn hvis => ?_⟩
    · have hfirst := hcleared.2.1 v k n hn hvis
      rw [mem_append, hfirst]
      by_cases hv : v = vid
      · simp [hv]
      · have hn₁ := (hcleared.1.getElem?_eq (mt hfirst.mp hv)).trans hn
        simp only [hv, false_or]
        exact hins' v k n hn₁ hvis
    · have hfirst := hcleared.2.2 v k n hn hvis
      rw [mem_append, hfirst]
      by_cases hnbr : n.neighbor = vid
      · simp [hnbr]
      · have hn₁ := (hcleared.1.swap.getElem?_eq (mt hfirst.mp hnbr)).trans hn
        simp only [hnbr, false_or]
        exact houts' v k n hn₁ hvis

end

end

end EdgeTable

end Neug.Storage
