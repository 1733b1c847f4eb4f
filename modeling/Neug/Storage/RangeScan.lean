import Neug.Lib.Reach
import Neug.Lib.WeakOrder
import Neug.Storage.MutableCsr

/-! `TypedView::foreach_nbr_gt` and `foreach_nbr_lt`: scans of an adjacency list from its end,
entry by entry as far as the list may be unsorted, then by order. -/
namespace Neug.Storage
open Neug.Lib List Option

variable {D : Type}

def Nbr.call (n : Nbr D) : ℕ × D := (n.neighbor, n.data)

def Nbr.settled (t unsortedSince : ℕ) (n : Nbr D) : Bool :=
  n.timestamp ≤ t && n.timestamp < unsortedSince

/-- The first loop of both scans, over the list from its end: the calls, and what is left. -/
def scanUnsorted (test : D → Bool) (t unsortedSince : ℕ) :
    List (Nbr D) → List (ℕ × D) × List (Nbr D)
  | [] => ([], [])
  | n :: rest =>
    if t < n.timestamp then scanUnsorted test t unsortedSince rest
    else if n.timestamp < unsortedSince then ([], n :: rest)
    else
      let r := scanUnsorted test t unsortedSince rest
      (if test n.data then n.call :: r.1 else r.1, r.2)

/-- `std::upper_bound`: the entries before the first one above. No result stands for a list in
which an entry above comes before one that is not. -/
def upperBound (above : D → Bool) (l : List (Nbr D)) : Option ℕ :=
  if l.Pairwise fun a b => above a.data → above b.data then
    some (l.takeWhile fun n => !above n.data).length
  else none

namespace MutableCsr

/-- `foreach_nbr_gt`. No result stands for a vertex without a list. -/
def foreachNbrGt (lt : D → D → Bool) (c : MutableCsr D) (v : ℕ) (x : D) (t : ℕ) :
    Option (List (ℕ × D)) :=
  if c.size ≤ v then none
  else
    let r := scanUnsorted (lt x) t c.unsortedSince (c.list v).reverse
    some (r.1 ++ (r.2.takeWhile fun n => lt x n.data).map Nbr.call)

/-- `foreach_nbr_lt`. The second part of the list is cut by `std::upper_bound`, and everything
before the cut is called. -/
def foreachNbrLt (lt : D → D → Bool) (c : MutableCsr D) (v : ℕ) (x : D) (t : ℕ) :
    Option (List (ℕ × D)) :=
  if c.size ≤ v then none
  else
    let r := scanUnsorted (fun d => lt d x) t c.unsortedSince (c.list v).reverse
    if r.2.isEmpty then some r.1
    else (upperBound (lt x) r.2.reverse).map fun k =>
      r.1 ++ ((r.2.reverse.take k).reverse).map Nbr.call

/-- The visible neighbours of `v` whose data pass a test. -/
def visibleWhere (c : MutableCsr D) (v t : ℕ) (test : D → Bool) : List (ℕ × D) :=
  ((c.list v).filter fun n => n.visible t && test n.data).map Nbr.call

def RangeScans (lt : D → D → Bool) (c : MutableCsr D) (v : ℕ) (x : D) (t : ℕ) : Prop :=
  (∃ l, c.foreachNbrGt lt v x t = some l ∧ l.Perm (c.visibleWhere v t (lt x))) ∧
  ∃ l, c.foreachNbrLt lt v x t = some l ∧ l.Perm (c.visibleWhere v t fun d => lt d x)

/-- The part of a list that a reader at `t` takes to be sorted: everything up to the last
visible entry from before the last sorting. -/
def sortedPart (c : MutableCsr D) (v t : ℕ) : List (Nbr D) :=
  (c.list v).rdropWhile fun n => !n.settled t c.unsortedSince

end MutableCsr

section

variable {l : List (Nbr D)} {t unsortedSince : ℕ}

theorem scanUnsorted_eq (test : D → Bool) (l : List (Nbr D)) : scanUnsorted test t unsortedSince l =
      (((l.takeWhile fun n => !n.settled t unsortedSince).filter
        fun n => n.visible t && test n.data).map Nbr.call,
        l.dropWhile fun n => !n.settled t unsortedSince) := by
  induction l with
  | nil => rfl
  | cons n rest ih =>
    by_cases hvisible : t < n.timestamp
    · have hsettled : n.settled t unsortedSince = false := by simp [Nbr.settled, hvisible]
      have hhidden : n.visible t = false := by simp [Nbr.visible, hvisible]
      simp [scanUnsorted, hvisible, ih, hsettled, hhidden]
    · by_cases hold : n.timestamp < unsortedSince
      · have hsettled : n.settled t unsortedSince = true := by
          simp [Nbr.settled, not_lt.mp hvisible, hold]
        simp [scanUnsorted, hvisible, hold, hsettled]
      · have hsettled : n.settled t unsortedSince = false := by simp [Nbr.settled, hold]
        have hseen : n.visible t = true := by simp [Nbr.visible, not_lt.mp hvisible]
        simp only [scanUnsorted, ↓reduceIte, ih, takeWhile_cons, hsettled,
          Bool.not_false, filter_cons, hseen, Bool.true_and, dropWhile_cons]
        split_ifs <;> rfl

/-- Where nothing that passes comes after something that does not, a prefix is a filter. -/
theorem takeWhile_eq_filter {α : Type} {p : α → Bool} {l : List α}
    (h : l.Pairwise fun a b => p b → p a) : l.takeWhile p = l.filter p := by
  induction l with
  | nil => rfl
  | cons a rest ih =>
    obtain ⟨hhead, htail⟩ := pairwise_cons.mp h
    by_cases ha : p a
    · rw [takeWhile_cons_of_pos ha, filter_cons_of_pos ha, ih htail]
    · have hnone : rest.filter p = [] := filter_eq_nil_iff.mpr fun b hb hpb => ha (hhead b hb hpb)
      rw [takeWhile_cons_of_neg ha, filter_cons_of_neg ha, hnone]

/-- A stronger filter keeps the same values only if it keeps the same elements. -/
theorem filter_map_perm_iff {α β : Type} {p q : α → Bool} (f : α → β) {l : List α}
    (h : ∀ a ∈ l, p a → q a) :
    ((l.filter q).map f).Perm ((l.filter p).map f) ↔ ∀ a ∈ l, q a → p a := by
  have hsub : l.filter p = (l.filter q).filter p := by
    rw [List.filter_filter]
    apply filter_congr
    intro a ha
    by_cases hp : p a
    · simp [h a ha hp]
    · simp [hp]
  constructor
  · intro hperm a ha hq
    have hlength := hperm.length_eq
    rw [length_map, length_map, hsub] at hlength
    have hall := filter_eq_self.mp
      ((filter_sublist).eq_of_length hlength.symm)
    exact hall a (mem_filter.mpr ⟨ha, hq⟩)
  · intro hall
    have hsame : l.filter q = l.filter p :=
      filter_congr fun a ha => Bool.eq_iff_iff.mpr ⟨hall a ha, h a ha⟩
    rw [hsame]

end

namespace MutableCsr

variable {lt : D → D → Bool} {c : MutableCsr D} {v t : ℕ} {x : D}

def unsortedPart (c : MutableCsr D) (v t : ℕ) : List (Nbr D) :=
  (c.list v).reverse.takeWhile fun n => !n.settled t c.unsortedSince

def unsortedCalls (c : MutableCsr D) (v t : ℕ) (test : D → Bool) : List (ℕ × D) :=
  ((c.unsortedPart v t).filter fun n => n.visible t && test n.data).map Nbr.call

theorem scanUnsorted_list (test : D → Bool) :
    scanUnsorted test t c.unsortedSince (c.list v).reverse =
      (c.unsortedCalls v t test, (c.sortedPart v t).reverse) := by
  rw [scanUnsorted_eq]
  simp [unsortedCalls, unsortedPart, sortedPart, rdropWhile]

theorem visibleWhere_perm (c : MutableCsr D) (v t : ℕ) (test : D → Bool) :
    (c.visibleWhere v t test).Perm (c.unsortedCalls v t test ++
      ((c.sortedPart v t).filter fun n => n.visible t && test n.data).map Nbr.call) := by
  have hsplit : (c.list v).reverse = c.unsortedPart v t ++ (c.sortedPart v t).reverse := by
    simp [unsortedPart, sortedPart, rdropWhile]
  have hperm : (c.list v).Perm (c.unsortedPart v t ++ c.sortedPart v t) := by
    apply (reverse_perm _).symm.trans
    rw [hsplit]
    exact (reverse_perm _).append_left _
  unfold visibleWhere unsortedCalls
  rw [← map_append, ← filter_append]
  exact (hperm.filter _).map _

theorem foreachNbrGt_iff (hv : v < c.size) :
    (∃ l, c.foreachNbrGt lt v x t = some l ∧ l.Perm (c.visibleWhere v t (lt x))) ↔
      (((c.sortedPart v t).reverse.takeWhile fun n => lt x n.data).map Nbr.call).Perm
        (((c.sortedPart v t).filter fun n => n.visible t && lt x n.data).map Nbr.call) := by
  simp only [foreachNbrGt, not_le.mpr hv, ↓reduceIte, scanUnsorted_list, some.injEq,
    exists_eq_left']
  rw [(visibleWhere_perm c v t (lt x)).congr_right, perm_append_left_iff]

/-- The less scan, in terms of the sorted part: `std::upper_bound` needs it partitioned, and
leaves the entries that are not above. -/
theorem foreachNbrLt_iff (hv : v < c.size) :
    (∃ l, c.foreachNbrLt lt v x t = some l ∧ l.Perm (c.visibleWhere v t fun d => lt d x)) ↔
      (c.sortedPart v t).Pairwise (fun a b => lt x a.data → lt x b.data) ∧
      (((c.sortedPart v t).filter fun n => !lt x n.data).map Nbr.call).Perm
        (((c.sortedPart v t).filter fun n => n.visible t && lt n.data x).map Nbr.call) := by
  have hcalls := visibleWhere_perm c v t fun d => lt d x
  simp only [foreachNbrLt, not_le.mpr hv, scanUnsorted_list, reverse_reverse,
    isEmpty_reverse, List.isEmpty_iff]
  by_cases hempty : c.sortedPart v t = []
  · simp only [hempty, filter_nil, map_nil, append_nil] at hcalls
    simp [hempty, hcalls.symm]
  · simp only [hempty, upperBound]
    by_cases hpart : (c.sortedPart v t).Pairwise fun a b => lt x a.data → lt x b.data
    · have htake : (c.sortedPart v t).takeWhile (fun n => !lt x n.data) =
          (c.sortedPart v t).filter fun n => !lt x n.data := by
        apply takeWhile_eq_filter
        apply hpart.imp
        intro a b hab hb
        by_contra ha
        simp only [Bool.not_eq_true', Bool.not_eq_false] at ha hb
        rw [hab ha] at hb
        exact Bool.noConfusion hb
      have hcut : (c.sortedPart v t).take
          ((c.sortedPart v t).takeWhile fun n => !lt x n.data).length =
          (c.sortedPart v t).filter fun n => !lt x n.data := by
        rw [← htake]
        exact (prefix_iff_eq_take.mp ( takeWhile_prefix _)).symm
      simp only [hpart, ↓reduceIte, map_some, some.injEq, exists_eq_left', true_and, hcut]
      rw [hcalls.congr_right, perm_append_left_iff]
      exact ((reverse_perm _).map _).congr_left _
    · simp [hpart]

theorem takeWhile_sortedPart
    (hpart : (c.sortedPart v t).Pairwise fun a b => lt x a.data → lt x b.data) :
    ((c.sortedPart v t).reverse.takeWhile fun n => lt x n.data).Perm
      ((c.sortedPart v t).filter fun n => lt x n.data) := by
  have hrev : (c.sortedPart v t).reverse.Pairwise fun a b => lt x b.data → lt x a.data :=
    pairwise_reverse.mpr hpart
  rw [takeWhile_eq_filter hrev, filter_reverse]
  exact reverse_perm _

/-- On a sorted part that is partitioned, visible and without ties the scans are right. -/
theorem rangeScans_of_sortedPart (hv : v < c.size) (hasymm : ∀ a b, lt a b → ¬ lt b a)
    (hvisible : ∀ n ∈ c.sortedPart v t, n.timestamp ≤ t)
    (hpart : (c.sortedPart v t).Pairwise fun a b => lt x a.data → lt x b.data)
    (htie : ∀ n ∈ c.sortedPart v t, lt n.data x ∨ lt x n.data) : c.RangeScans lt v x t := by
  constructor
  · rw [foreachNbrGt_iff hv]
    apply ((takeWhile_sortedPart hpart).map _).trans
    apply (filter_map_perm_iff _ _).mpr
    · intro n hn hgt
      simp [Nbr.visible, hvisible n hn, hgt]
    · intro n _ hn
      exact (Bool.and_eq_true_iff.mp hn).2
  · rw [foreachNbrLt_iff hv]
    refine ⟨hpart, (filter_map_perm_iff _ ?_).mpr ?_⟩
    · intro n _ hn
      have hlt := (Bool.and_eq_true_iff.mp hn).2
      simpa using hasymm _ _ hlt
    · intro n hn hle
      have hlt : lt n.data x := (htie n hn).resolve_right (by simpa using hle)
      simp [Nbr.visible, hvisible n hn, hlt]

/-- The scans equal filtered scans exactly if in the part taken to be sorted every entry is
visible, nothing above the threshold stands before something that is not, and nothing ties
with the threshold. -/
theorem rangeScans_iff (lt : D → D → Bool) (hasymm : ∀ a b, lt a b → ¬ lt b a)
    (c : MutableCsr D) (v : ℕ) (hv : v < c.size) (x : D) (t : ℕ) :
    c.RangeScans lt v x t ↔
      (∀ n ∈ c.sortedPart v t, n.timestamp ≤ t) ∧
      (c.sortedPart v t).Pairwise (fun a b => lt x a.data → lt x b.data) ∧
      ∀ n ∈ c.sortedPart v t, lt n.data x ∨ lt x n.data := by
  constructor
  · rintro ⟨hgt, hlt⟩
    rw [foreachNbrGt_iff hv] at hgt
    obtain ⟨hpart, hlt⟩ := (foreachNbrLt_iff hv).mp hlt
    have habove := (filter_map_perm_iff Nbr.call fun n _ hn => (Bool.and_eq_true_iff.mp hn).2).mp
      (((takeWhile_sortedPart hpart).map Nbr.call).symm.trans hgt)
    have hbelow := (filter_map_perm_iff Nbr.call fun n _ hn => by
      simpa using hasymm _ _ (Bool.and_eq_true_iff.mp hn).2).mp hlt
    -- an entry is above the threshold or not, and the matching scan reports on it
    have hboth : ∀ n ∈ c.sortedPart v t, n.timestamp ≤ t ∧ (lt n.data x ∨ lt x n.data) := by
      intro n hn
      by_cases hx : lt x n.data
      · have h := habove n hn hx
        simp only [Nbr.visible, Bool.and_eq_true, decide_eq_true_eq] at h
        exact ⟨h.1, .inr h.2⟩
      · have h := hbelow n hn (by simpa using hx)
        simp only [Nbr.visible, Bool.and_eq_true, decide_eq_true_eq] at h
        exact ⟨h.1, .inl h.2⟩
    exact ⟨fun n hn => (hboth n hn).1, hpart, fun n hn => (hboth n hn).2⟩
  · rintro ⟨hvisible, hpart, htie⟩
    exact rangeScans_of_sortedPart hv hasymm hvisible hpart htie

inductive ScanOp (D : Type) where
  | put (src dst : ℕ) (data : D) (ts : ℕ)
  | batchPut (rows : List (ℕ × ℕ × D)) (ts : ℕ)
  | delete (src offset ts : ℕ)
  | sort (ts : ℕ)
  | compact

def scanStep (lt : D → D → Bool) (c : MutableCsr D) : ScanOp D → Option (MutableCsr D)
  | .put src dst data ts => some ((c.putEdge src dst data ts).toOption.getD c)
  | .batchPut rows ts => some (c.batchPutEdges rows ts)
  | .delete src offset ts => some ((c.deleteEdge src offset ts).toOption.getD c)
  | .sort ts => some (c.batchSortByEdgeData lt ts)
  | .compact => some c.compact.1

/-- Operations after which readers may rely on the order: new edges are not older than the
last sorting, only such edges are deleted, and a sorting comes after all entries. -/
def KeepsOrder (c : MutableCsr D) : ScanOp D → Prop
  | .put _ _ _ ts | .batchPut _ ts => c.unsortedSince ≤ ts
  | .delete src offset ts => ∀ n, (c.list src)[offset]? = some n → n.timestamp ≤ ts →
      c.unsortedSince ≤ n.timestamp
  | .sort ts => ts ≤ invalidTimestamp ∧ ∀ v, ∀ n ∈ c.list v, n.timestamp < ts
  | .compact => True

/-- Every list is a sorted part from before the last sorting, then entries from after it. -/
def Layered (lt : D → D → Bool) (c : MutableCsr D) : Prop :=
  ∀ v, ∃ old new, c.list v = old ++ new ∧ (∀ n ∈ old, n.timestamp < c.unsortedSince) ∧
    Ascending (fun a b : Nbr D => lt a.data b.data) old ∧
    ∀ n ∈ new, c.unsortedSince ≤ n.timestamp

theorem Layered.push {n : Nbr D} {src : ℕ} (h : c.Layered lt) (hsrc : src < c.size)
    (hn : c.unsortedSince ≤ n.timestamp) : (c.push src n).Layered lt := by
  intro u
  rw [list_push hsrc]
  by_cases hu : u = src
  · obtain ⟨old, new, hlist, hold, hasc, hnew⟩ := h src
    refine ⟨old, new ++ [n], ?_, hold, hasc, ?_⟩
    · rw [if_pos hu, hlist, append_assoc]
    · exact forall_mem_append.mpr ⟨hnew, forall_mem_singleton.mpr hn⟩
  · rw [if_neg hu]
    exact h u

theorem Layered.batchPutEdges (rows : List (ℕ × ℕ × D)) {ts : ℕ} (h : c.Layered lt)
    (hts : c.unsortedSince ≤ ts) : (c.batchPutEdges rows ts).Layered lt ∧
      (c.batchPutEdges rows ts).unsortedSince = c.unsortedSince := by
  unfold MutableCsr.batchPutEdges
  induction rows generalizing c with
  | nil => exact ⟨h, rfl⟩
  | cons row rest ih =>
    rw [foldl_cons, putRow]
    split_ifs with hrow
    · exact ih (h.push hrow hts) hts
    · exact ih h hts

theorem Layered.deleteEdge {c' : MutableCsr D} {src offset ts : ℕ} (h : c.Layered lt)
    (hkeep : c.KeepsOrder (.delete src offset ts)) (hinvalid : c.unsortedSince ≤ invalidTimestamp)
    (hdel : c.deleteEdge src offset ts = .ok c') :
    c'.Layered lt ∧ c'.unsortedSince = c.unsortedSince := by
  unfold MutableCsr.deleteEdge at hdel
  split at hdel
  · cases hdel
  · rename_i n hn
    split_ifs at hdel with hts
    · cases hdel
      refine ⟨fun u => ?_, rfl⟩
      change ∃ old new, (c.setNbr src offset n.tombstone).list u = old ++ new ∧ _
      rw [list_setNbr (lt_size_of_getElem? hn)]
      by_cases hu : u = src
      · obtain ⟨old, new, hlist, hold, hasc, hnew⟩ := h src
        -- the entry is not older than the sorting, so it stands behind the sorted part
        have hoffset : old.length ≤ offset := by
          by_contra hlt
          have hnewer := hkeep n hn hts
          rw [hlist, getElem?_append_left (by omega)] at hn
          have holder := hold n (mem_of_getElem? hn)
          omega
        refine ⟨old, new.set (offset - old.length) n.tombstone, ?_, hold, hasc, ?_⟩
        · rw [if_pos hu, hlist, set_append_right _ _ hoffset]
        · intro m hm
          rcases mem_or_eq_of_mem_set hm with hm | rfl
          · exact hnew m hm
          · exact hinvalid
      · rw [if_neg hu]
        exact h u
    · cases hdel
      exact ⟨h, rfl⟩

theorem Layered.sort [IsStrictWeakOrder D fun a b => lt a b] {ts : ℕ}
    (hkeep : c.KeepsOrder (.sort ts)) : (c.batchSortByEdgeData lt ts).Layered lt := by
  intro u
  have hlist : (c.batchSortByEdgeData lt ts).list u =
      (c.list u).insertionSort fun a b => lt b.data a.data = false :=
    getD_map c.adj _ rfl u
  refine ⟨_, [], by rw [hlist, append_nil], ?_, ?_, by simp⟩
  · intro n hn
    exact hkeep.2 u n ((perm_insertionSort _ _).mem_iff.mp hn)
  · have horder : IsStrictWeakOrder (Nbr D) fun a b => lt a.data b.data :=
      inferInstanceAs (IsStrictWeakOrder _ (Function.onFun (fun a b => lt a b) Nbr.data))
    have hsorted := ascending_insertionSort (r := fun a b => lt a.data b.data) (c.list u)
    simpa only [Bool.not_eq_true] using hsorted

theorem Layered.compact (h : c.Layered lt) : c.compact.1.Layered lt := by
  intro u
  have hlist : c.compact.1.list u = (c.list u).filter Nbr.alive := getD_map c.adj _ rfl u
  obtain ⟨old, new, happ, hold, hasc, hnew⟩ := h u
  refine ⟨old.filter Nbr.alive, new.filter Nbr.alive, ?_, ?_, hasc.filter _, ?_⟩
  · rw [hlist, happ, filter_append]
  · exact fun n hn => hold n (mem_of_mem_filter hn)
  · exact fun n hn => hnew n (mem_of_mem_filter hn)

theorem Layered.step [IsStrictWeakOrder D fun a b => lt a b] {c' : MutableCsr D} {op : ScanOp D}
    (h : c.Layered lt ∧ c.unsortedSince ≤ invalidTimestamp) (hkeep : c.KeepsOrder op)
    (hstep : c.scanStep lt op = some c') : c'.Layered lt ∧ c'.unsortedSince ≤ invalidTimestamp := by
  obtain ⟨hlayer, hinvalid⟩ := h
  cases op with
  | put src dst data ts =>
    simp only [scanStep, putEdge] at hstep
    cases hstep
    split_ifs with hsrc
    · exact ⟨hlayer, hinvalid⟩
    · exact ⟨hlayer.push (not_le.mp hsrc) hkeep, hinvalid⟩
  | batchPut rows ts =>
    cases hstep
    obtain ⟨hlayer, hsame⟩ := hlayer.batchPutEdges rows hkeep
    exact ⟨hlayer, hsame.trans_le hinvalid⟩
  | delete src offset ts =>
    cases hstep
    cases hdel : c.deleteEdge src offset ts with
    | error e => exact ⟨hlayer, hinvalid⟩
    | ok d =>
      obtain ⟨hlayer, hsame⟩ := hlayer.deleteEdge hkeep hinvalid hdel
      exact ⟨hlayer, hsame.trans_le hinvalid⟩
  | sort ts =>
    cases hstep
    exact ⟨Layered.sort hkeep, hkeep.1⟩
  | compact =>
    cases hstep
    exact ⟨hlayer.compact, hinvalid⟩

theorem layered_of_run [IsStrictWeakOrder D fun a b => lt a b]
    (h : Reach (fun c : MutableCsr D => ∃ vnum, c = empty.resize vnum) (scanStep lt) KeepsOrder c) :
    c.Layered lt := by
  have hinv : c.Layered lt ∧ c.unsortedSince ≤ invalidTimestamp := by
    apply Reach.invariant (fun _ _ => trivial) ?_ ?_ h
    · rintro c ⟨vnum, rfl⟩
      refine ⟨fun v => ⟨[], [], ?_, by simp, List.Pairwise.nil, by simp⟩, Nat.zero_le _⟩
      simp only [resize, empty, list, take_nil, nil_append,
        getD_eq_getElem?_getD, getElem?_replicate]
      split_ifs <;> rfl
    · intro c op c' _ hc hkeep hstep
      exact Layered.step hc hkeep hstep
  exact hinv.1

/-- On layered lists a reader who sees all entries from before the last sorting takes exactly
these to be sorted. -/
theorem Layered.sortedPart_subset (h : c.Layered lt) (hreader : c.unsortedSince ≤ t + 1) (v : ℕ) :
    Ascending (fun a b : Nbr D => lt a.data b.data) (c.sortedPart v t) ∧
      ∀ n ∈ c.sortedPart v t, n.timestamp < c.unsortedSince := by
  obtain ⟨old, new, hlist, hold, hasc, hnew⟩ := h v
  have hpart : c.sortedPart v t = old := by
    have hskip : ∀ n ∈ new.reverse, (!n.settled t c.unsortedSince) = true := by
      intro n hn
      simp [Nbr.settled, hnew n (mem_reverse.mp hn)]
    rw [sortedPart, hlist, rdropWhile, reverse_append, dropWhile_append_of_pos hskip]
    refine rdropWhile_eq_self_iff.mpr fun hne => ?_
    have hlast := hold _ (getLast_mem hne)
    have hseen : (old.getLast hne).timestamp ≤ t := by omega
    simp [Nbr.settled, hseen, hlast]
  rw [hpart]
  exact ⟨hasc, hold⟩

/-- A list with two unsorted edges is scanned right. -/
theorem rangeScans_unsorted :
    (((empty : MutableCsr ℕ).resize 1).batchPutEdges [(0, 1, 7), (0, 2, 5)] 1).RangeScans
      (fun a b => a < b) 0 5 1 := by
  apply (rangeScans_iff _ (fun a b hab hba => by simp at hab hba; omega) _ 0 (by decide) 5 1).mpr
  have hpart : ((empty.resize 1).batchPutEdges [(0, 1, 7), (0, 2, 5)] 1).sortedPart
      0 1 = [] := by decide
  simp [hpart]

/-- Two edges with data 5 and 7 are put at timestamp 1 and sorted at timestamp 2, then the first
one is deleted. The scan for data below 5 calls the edge with 5, and after the deletion the scan
for data above 1 still calls it. -/
theorem tie_and_tombstone_called :
    (execute (scanStep fun a b => decide (a < b)) [.put 0 1 5 1, .put 0 2 7 1, .sort 2]
      (empty.resize 1)).map (fun c => (c.foreachNbrLt (fun a b => decide (a < b)) 0 5 2,
        c.visibleWhere 0 2 fun d => decide (d < 5))) = some (some [(1, 5)], []) ∧
    (execute (scanStep fun a b => decide (a < b)) [.put 0 1 5 1, .put 0 2 7 1, .sort 2,
      .delete 0 0 2] (empty.resize 1)).map (fun c =>
        (c.foreachNbrGt (fun a b => decide (a < b)) 0 1 2,
          c.visibleWhere 0 2 fun d => decide (1 < d))) =
            some (some [(2, 7), (1, 5)], [(2, 7)]) := by
  decide +kernel

end MutableCsr

end Neug.Storage
