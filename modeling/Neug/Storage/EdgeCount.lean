import Neug.Lib.Reach
import Neug.Storage.Csr

/-! `edge_num` against the entries that are not deleted, over every run of calls. Some of the
batch functions change the counter without a look at the entry they write. -/
namespace Neug.Storage
open Neug.Lib List Option MutableCsr

variable {D : Type}

namespace MutableCsr

def surplus (c : MutableCsr D) : ℤ := c.edgeNum - c.liveNum

variable {c c' : MutableCsr D}

theorem surplus_set {src : ℕ} (hsrc : src < c.size) (l : List (Nbr D)) {edgeNum : ℤ}
    (hnum : edgeNum + (c.list src).countP Nbr.alive = c.edgeNum + l.countP Nbr.alive) :
    ({ c with adj := c.adj.set src l, edgeNum := edgeNum } : MutableCsr D).surplus = c.surplus := by
  have hl : c.adj[src]? = some (c.list src) := by
    rw [list, getD_eq_getElem?_getD, getElem?_eq_getElem hsrc, getD_some]
  have hcount := countP_flatten_modify (f := fun _ => l) (p := Nbr.alive) hl
  rw [modify_eq_set_getElem?, hl] at hcount
  simp only [Option.map_eq_map, map_some, getD_some] at hcount
  simp only [surplus, liveNum]
  omega

theorem surplus_setNbr {src offset : ℕ} {n : Nbr D} (hn : (c.list src)[offset]? = some n)
    (x : Nbr D) {edgeNum : ℤ}
    (hnum : edgeNum + (if n.alive then 1 else 0) = c.edgeNum + if x.alive then 1 else 0) :
    ({ c.setNbr src offset x with edgeNum := edgeNum } : MutableCsr D).surplus = c.surplus := by
  have hcount := countP_set_add (p := Nbr.alive) hn x
  refine surplus_set (lt_size_of_getElem? hn) _ ?_
  split_ifs at hnum hcount <;> omega

theorem surplus_push {src : ℕ} (hsrc : src < c.size) {n : Nbr D} (hn : n.alive) :
    (c.push src n).surplus = c.surplus := by
  refine surplus_set hsrc _ ?_
  rw [countP_append, countP_singleton, if_pos hn]
  omega

theorem surplus_batchPutEdges (c : MutableCsr D) (rows : List (ℕ × ℕ × D)) {ts : ℕ}
    (hts : ts ≠ invalidTimestamp) : (c.batchPutEdges rows ts).surplus = c.surplus := by
  refine foldl_fixes surplus rows (fun c row _ => ?_) c
  unfold putRow
  split_ifs with hsrc
  · exact surplus_push hsrc (Nbr.alive_iff.mpr hts)
  · rfl

theorem surplus_batchDeleteOffsets (c : MutableCsr D) (edges : List (ℕ × ℕ)) :
    (c.batchDeleteOffsets edges).surplus = c.surplus := by
  refine foldl_fixes surplus edges (fun c e _ => ?_) c
  unfold tombstoneAt
  split
  · rfl
  · next n hn => exact surplus_setNbr hn _ (by cases ha : n.alive <;> simp)

theorem surplus_mapIdx {f : ℕ → List (Nbr D) → List (Nbr D)} {gone : ℕ → List (Nbr D) → ℕ}
    (h : ∀ (v : ℕ) l, c.adj[v]? = some l →
      (f v l).countP Nbr.alive + gone v l = l.countP Nbr.alive) :
    ({ c with adj := c.adj.mapIdx f, edgeNum := c.edgeNum - (c.adj.mapIdx gone).sum } :
      MutableCsr D).surplus = c.surplus := by
  have hcount := countP_flatten_mapIdx h
  simp only [surplus, liveNum]
  omega

theorem surplus_batchDeleteVertices (c : MutableCsr D) (srcSet dstSet : Finset ℕ) :
    (c.batchDeleteVertices srcSet dstSet).surplus = c.surplus := by
  refine surplus_mapIdx fun v l _ => ?_
  by_cases hv : v ∈ srcSet
  · simp [hv]
  · rw [if_neg hv, countP_eq_countP_filter_add l Nbr.alive (fun n => n.neighbor ∉ dstSet),
      add_left_cancel_iff, countP_filter]
    simp [hv]

theorem surplus_batchDeletePairs {pairs : List (ℕ × ℕ)}
    (hlive : ∀ pair ∈ pairs, ∀ n ∈ c.list pair.1, n.neighbor = pair.2 → n.alive) :
    (c.batchDeletePairs pairs).surplus = c.surplus := by
  refine surplus_mapIdx fun v l hl => ?_
  have hall : ∀ n ∈ l, (v, n.neighbor) ∈ pairs → n.alive := fun n hn hpair =>
    hlive _ hpair n (by simpa [list, hl] using hn) rfl
  clear hl hlive
  induction l with
  | nil => rfl
  | cons n l ih =>
    have hrest := ih fun m hm => hall m (mem_cons_of_mem _ hm)
    simp only [map_cons, countP_cons]
    by_cases hpair : (v, n.neighbor) ∈ pairs
    · simp only [hpair, hall n mem_cons_self hpair, if_true, decide_true,
        Nbr.alive_tombstone, Bool.false_eq_true, if_false]
      omega
    · simp only [hpair, if_false, decide_false, Bool.false_eq_true]
      omega

theorem surplus_compact (c : MutableCsr D) : c.compact.1.surplus = c.surplus := by
  simp only [compact, surplus, liveNum, ← filter_flatten, countP_filter, Bool.and_self]

theorem surplus_resize {vnum : ℕ} (hdrop : ∀ l ∈ c.adj.drop vnum, l = []) :
    (c.resize vnum).surplus = c.surplus := by
  have hsplit : c.adj.flatten = (c.adj.take vnum).flatten ++ (c.adj.drop vnum).flatten := by
    rw [← flatten_append, take_append_drop]
  have hnil : (c.adj.drop vnum).flatten = [] := flatten_eq_nil_iff.mpr hdrop
  simp [surplus, liveNum, resize, hsplit, hnil]

end MutableCsr

namespace Csr

def surplus (c : Csr D) : ℤ := c.edgeNum - c.liveNum

/-- A batch of rows finds their slots free. Only a mutable CSR with single slots writes over an
edge. -/
def Vacant : Csr D → List (ℕ × ℕ × D) → Prop
  | .singleMutable c, rows => (∀ row ∈ rows, ∀ n ∈ c.slots[row.1]?, n.alive = false) ∧
      rows.Pairwise fun r r' => r.1 = r'.1 → c.size ≤ r.1
  | _, _ => True

def OffsetsUsed : Csr D → List (ℕ × ℕ) → Prop
  | .singleMutable c, edges => (∀ e ∈ edges, ∀ n ∈ c.slots[e.1]?, n.alive = true) ∧
      edges.Pairwise fun e e' => e.1 = e'.1 → c.size ≤ e.1
  | .immutable c, edges => ∀ e ∈ edges, ∀ n ∈ (c.list e.1)[e.2]?, n.alive = true
  | _, _ => True

def PairsUsed : Csr D → List (ℕ × ℕ) → Prop
  | .mutable c, pairs => ∀ pair ∈ pairs, ∀ n ∈ c.list pair.1, n.neighbor = pair.2 → n.alive = true
  | _, _ => True

def Covers : Csr D → ℕ → Prop
  | .mutable c, vnum => ∀ l ∈ c.adj.drop vnum, l = []
  | .singleMutable c, vnum => ∀ n ∈ c.slots.drop vnum, n.alive = false
  | .immutable c, vnum => ∀ d ∈ c.degrees.drop vnum, d = 0
  | .singleImmutable c, vnum => ∀ n ∈ c.slots.drop vnum, n.alive = false

/-- The calls after which the counter stays right. Timestamps and ids are below the values that
stand for none. -/
def Counted (c : Csr D) : CsrCall D → Prop
  | .putEdge _ dst _ ts => ts < invalidTimestamp ∧ dst < invalidVid
  | .batchPutEdges rows ts =>
    ts < invalidTimestamp ∧ (∀ row ∈ rows, row.2.1 < invalidVid) ∧ c.Vacant rows
  | .deleteEdge _ _ ts => ts < invalidTimestamp
  | .revertDeleteEdge _ nbr _ ts => ts < invalidTimestamp ∧ nbr < invalidVid
  | .batchDeleteOffsets edges => c.OffsetsUsed edges
  | .batchDeletePairs pairs => c.PairsUsed pairs
  | .resize vnum _ => c.Covers vnum
  | .batchDeleteVertices _ _ | .compact | .reopen => True

def Kept (c c' : Csr D) : Prop := c'.Ordered ∧ c'.surplus = c.surplus

theorem kept_refl {c : Csr D} (h : c.Ordered) : Kept c c := ⟨h, rfl⟩

theorem kept_immutable {c : ImmutableCsr D} {run : Option (ImmutableCsr D)} {c' : Csr D}
    {lists : List (List (ImmutableNbr D))} (hstep : run.map Csr.immutable = some c')
    (hrun : ∃ b, run = some b ∧ b.Laid lists ∧ b.surplus = c.surplus) : Kept (.immutable c) c' := by
  obtain ⟨b, hb, hlaid, hsurplus⟩ := hrun
  rw [hb, map_some, some.injEq] at hstep
  exact hstep ▸ ⟨⟨lists, hlaid⟩, hsurplus⟩

theorem kept_of_except {α : Type} {c : Csr D} (h : c.Ordered) (wrap : α → Csr D) {a : α}
    (ha : wrap a = c) {r : Except CsrError α} (hok : ∀ b, r = .ok b → Kept c (wrap b)) :
    Kept c (wrap (r.toOption.getD a)) := by
  cases hr : r with
  | error e => exact ha ▸ kept_refl (ha ▸ h)
  | ok b => exact hok b hr

variable {c c' : Csr D}

theorem kept_putEdge {src dst ts : ℕ} {data : D} (h : c.Ordered) (hts : ts < invalidTimestamp)
    (hstep : c.putEdge src dst data ts = some c') : Kept c c' := by
  cases c with
  | mutable c =>
    cases hstep
    refine kept_of_except h Csr.mutable rfl fun b hb => ⟨trivial, ?_⟩
    unfold MutableCsr.putEdge at hb
    split_ifs at hb with hsrc
    cases hb
    exact surplus_push (not_le.mp hsrc) (Nbr.alive_iff.mpr hts.ne)
  | singleMutable c =>
    obtain ⟨r, hr, rfl⟩ := map_eq_some_iff.mp hstep
    refine kept_of_except h Csr.singleMutable rfl fun b hb => ⟨trivial, ?_⟩
    exact SingleMutableCsr.surplus_putEdge hts.ne (hb ▸ hr)
  | immutable c => cases hstep
  | singleImmutable c => cases hstep

theorem alive_immutableRows {rows : List (ℕ × ℕ × D)} (h : ∀ row ∈ rows, row.2.1 < invalidVid) :
    ∀ row ∈ immutableRows rows, row.2.alive := by
  intro row hrow
  obtain ⟨r, hr, rfl⟩ := mem_map.mp hrow
  simpa [ImmutableNbr.alive] using (h r hr).ne

theorem kept_batchPutEdges {rows : List (ℕ × ℕ × D)} {ts : ℕ} (h : c.Ordered)
    (hts : ts < invalidTimestamp) (hrows : ∀ row ∈ rows, row.2.1 < invalidVid)
    (hfree : c.Vacant rows) (hstep : c.batchPutEdges rows ts = some c') : Kept c c' := by
  cases c with
  | mutable c =>
    cases hstep
    exact ⟨trivial, c.surplus_batchPutEdges rows hts.ne⟩
  | singleMutable c =>
    cases hstep
    exact ⟨trivial, SingleMutableCsr.surplus_batchPutEdges hts.ne hfree.1 hfree.2⟩
  | immutable c =>
    obtain ⟨b, hb, rfl⟩ := map_eq_some_iff.mp hstep
    obtain ⟨lists, hlaid⟩ := h
    obtain ⟨hlaid', hsurplus⟩ := hlaid.batchPutEdges (alive_immutableRows hrows) hb
    exact ⟨⟨_, hlaid'⟩, hsurplus⟩
  | singleImmutable c =>
    cases hstep
    exact ⟨trivial, SingleImmutableCsr.surplus_batchPutEdges (alive_immutableRows hrows)⟩

theorem kept_deleteEdge (src offset : ℕ) {ts : ℕ} (h : c.Ordered) (hts : ts < invalidTimestamp) :
    Kept c (c.deleteEdge src offset ts) := by
  cases c with
  | mutable c =>
    refine kept_of_except h Csr.mutable rfl fun b hb => ⟨trivial, ?_⟩
    unfold MutableCsr.deleteEdge at hb
    split at hb
    · cases hb
    · next n hn =>
      split_ifs at hb with hvis
      · cases hb
        have ha : n.alive = true := Nbr.alive_iff.mpr (by omega)
        exact surplus_setNbr hn _ (by simp [ha])
      · cases hb
        rfl
  | singleMutable c =>
    exact kept_of_except h Csr.singleMutable rfl fun b hb =>
      ⟨trivial, SingleMutableCsr.surplus_deleteEdge hts hb⟩
  | immutable c =>
    refine kept_of_except h Csr.immutable rfl fun b hb => ?_
    obtain ⟨lists, hlaid⟩ := h
    exact ⟨⟨_, (hlaid.deleteEdge hb).choose_spec.1⟩, (hlaid.deleteEdge hb).choose_spec.2⟩
  | singleImmutable c =>
    exact kept_of_except h Csr.singleImmutable rfl fun b hb =>
      ⟨trivial, SingleImmutableCsr.surplus_deleteEdge hb⟩

theorem kept_revertDeleteEdge (src offset : ℕ) {nbr ts : ℕ} (h : c.Ordered)
    (hts : ts < invalidTimestamp) (hnbr : nbr < invalidVid) :
    Kept c (c.revertDeleteEdge src nbr offset ts) := by
  cases c with
  | mutable c =>
    refine kept_of_except h Csr.mutable rfl fun b hb => ⟨trivial, ?_⟩
    unfold MutableCsr.revertDeleteEdge at hb
    split at hb
    · cases hb
    · next n hn =>
      split_ifs at hb with hne hdead
      cases hb
      have ha : ¬ n.alive = true := by simp [Nbr.alive, hdead]
      exact surplus_setNbr hn _ (by
        rw [if_neg ha, if_pos (Nbr.alive_iff.mpr hts.ne)]
        omega)
  | singleMutable c =>
    exact kept_of_except h Csr.singleMutable rfl fun b hb =>
      ⟨trivial, SingleMutableCsr.surplus_revertDeleteEdge hts.ne hb⟩
  | immutable c =>
    refine kept_of_except h Csr.immutable rfl fun b hb => ?_
    obtain ⟨lists, hlaid⟩ := h
    obtain ⟨lists', hlaid', hsurplus⟩ := hlaid.revertDeleteEdge hnbr.ne hb
    exact ⟨⟨_, hlaid'⟩, hsurplus⟩
  | singleImmutable c =>
    exact kept_of_except h Csr.singleImmutable rfl fun b hb =>
      ⟨trivial, SingleImmutableCsr.surplus_revertDeleteEdge hnbr.ne hb⟩

theorem kept_batchDeleteOffsets {edges : List (ℕ × ℕ)} (h : c.Ordered)
    (hused : c.OffsetsUsed edges) (hstep : c.batchDeleteOffsets edges = some c') : Kept c c' := by
  cases c with
  | mutable c | singleImmutable c =>
    cases hstep
    exact ⟨trivial, c.surplus_batchDeleteOffsets edges⟩
  | singleMutable c =>
    cases hstep
    exact ⟨trivial, SingleMutableCsr.surplus_batchDeleteOffsets hused.1 hused.2⟩
  | immutable c =>
    obtain ⟨lists, hlaid⟩ := h
    exact kept_immutable hstep (hlaid.batchDeleteOffsets hused)

theorem kept_batchDeletePairs {pairs : List (ℕ × ℕ)} (h : c.Ordered)
    (hused : c.PairsUsed pairs) (hstep : c.batchDeletePairs pairs = some c') : Kept c c' := by
  cases c with
  | mutable c =>
    cases hstep
    exact ⟨trivial, surplus_batchDeletePairs hused⟩
  | singleMutable c | singleImmutable c =>
    cases hstep
    exact ⟨trivial, c.surplus_batchDeletePairs pairs⟩
  | immutable c =>
    obtain ⟨lists, hlaid⟩ := h
    exact kept_immutable hstep (hlaid.batchDeletePairs pairs)

theorem kept_batchDeleteVertices {srcSet dstSet : Finset ℕ} (h : c.Ordered)
    (hstep : c.batchDeleteVertices srcSet dstSet = some c') : Kept c c' := by
  cases c with
  | mutable c | singleMutable c | singleImmutable c =>
    cases hstep
    exact ⟨trivial, c.surplus_batchDeleteVertices srcSet dstSet⟩
  | immutable c =>
    obtain ⟨lists, hlaid⟩ := h
    exact kept_immutable hstep (hlaid.batchDeleteVertices srcSet dstSet)

theorem kept_compact (h : c.Ordered) (hstep : c.compact = some c') : Kept c c' := by
  cases c with
  | mutable c =>
    cases hstep
    exact ⟨trivial, c.surplus_compact⟩
  | immutable c =>
    obtain ⟨b, hb, rfl⟩ := map_eq_some_iff.mp hstep
    obtain ⟨lists, hlaid⟩ := h
    obtain ⟨hlaid', hsurplus⟩ := hlaid.compact hb
    exact ⟨⟨_, hlaid'⟩, hsurplus⟩
  | singleMutable c | singleImmutable c => exact some.inj hstep ▸ kept_refl h

theorem kept_resize {vnum : ℕ} (memory : ℕ → ℕ × D) (h : c.Ordered) (hcovers : c.Covers vnum) :
    Kept c (c.resize vnum memory) := by
  cases c with
  | mutable c => exact ⟨trivial, surplus_resize hcovers⟩
  | singleMutable c => exact ⟨trivial, SingleMutableCsr.surplus_resize hcovers memory⟩
  | immutable c =>
    obtain ⟨lists, hlaid⟩ := h
    exact ⟨⟨_, hlaid.resize hcovers⟩, hlaid.surplus_resize hcovers⟩
  | singleImmutable c => exact ⟨trivial, SingleImmutableCsr.surplus_resize hcovers _⟩

theorem kept_reopen (h : c.Ordered) : Kept c c.reopen := by
  cases c with
  | immutable c =>
    obtain ⟨lists, hlaid⟩ := h
    refine ⟨⟨_, hlaid.reopen⟩, ?_⟩
    change c.edgeNum - c.reopen.liveNum = c.edgeNum - c.liveNum
    rw [hlaid.reopen.liveNum_eq, hlaid.liveNum_eq]
  | mutable c => exact kept_refl h
  | singleMutable c => exact kept_refl h
  | singleImmutable c => exact kept_refl h

theorem kept_step {l : CsrCall D} (h : c.Ordered) (hok : c.Counted l)
    (hstep : c.step l = some c') : Kept c c' := by
  cases l with
  | putEdge src dst data ts => exact kept_putEdge h hok.1 hstep
  | batchPutEdges rows ts => exact kept_batchPutEdges h hok.1 hok.2.1 hok.2.2 hstep
  | deleteEdge src offset ts => exact some.inj hstep ▸ kept_deleteEdge src offset h hok
  | revertDeleteEdge src nbr offset ts =>
    exact some.inj hstep ▸ kept_revertDeleteEdge src offset h hok.1 hok.2
  | batchDeleteOffsets edges => exact kept_batchDeleteOffsets h hok hstep
  | batchDeletePairs pairs => exact kept_batchDeletePairs h hok hstep
  | batchDeleteVertices srcSet dstSet => exact kept_batchDeleteVertices h hstep
  | compact => exact kept_compact h hstep
  | resize vnum memory => exact some.inj hstep ▸ kept_resize memory h hok
  | reopen => exact some.inj hstep ▸ kept_reopen h

theorem Initial.kept (h : c.Initial) : c.Ordered ∧ c.surplus = 0 := by
  rcases h with rfl | rfl | rfl | rfl
  · exact ⟨trivial, rfl⟩
  · exact ⟨trivial, rfl⟩
  · exact ⟨⟨[], rfl, rfl, trivial⟩, rfl⟩
  · exact ⟨trivial, rfl⟩

theorem kept_of_reach (h : Reach Initial step Counted c) : c.Ordered ∧ c.surplus = 0 := by
  refine Reach.invariant (J := fun s => s.Ordered ∧ s.surplus = 0)
    (fun _ _ => trivial) (fun _ hs => Initial.kept hs) ?_ h
  intro s l s' _ hs hok hstep
  obtain ⟨hordered, hsurplus⟩ := kept_step hs.1 hok hstep
  exact ⟨hordered, hsurplus.trans hs.2⟩

/-- The counter of every kind of CSR is the number of its entries that are not deleted, in every
run whose batches write no slot in use and delete no entry twice. -/
theorem edgeNum_eq_liveNum (h : Reach Initial step Counted c) : c.edgeNum = c.liveNum :=
  sub_eq_zero.mp (kept_of_reach h).2

instance (c : Csr D) (rows : List (ℕ × ℕ × D)) : Decidable (c.Vacant rows) :=
  match c with
  | .singleMutable _ => inferInstanceAs (Decidable (_ ∧ _))
  | .mutable _ | .immutable _ | .singleImmutable _ => .isTrue trivial

instance (c : Csr D) (edges : List (ℕ × ℕ)) : Decidable (c.OffsetsUsed edges) :=
  match c with
  | .singleMutable _ => inferInstanceAs (Decidable (_ ∧ _))
  | .immutable c =>
    inferInstanceAs (Decidable (∀ e ∈ edges, ∀ n ∈ (c.list e.1)[e.2]?, n.alive = true))
  | .mutable _ | .singleImmutable _ => .isTrue trivial

instance (c : Csr D) (pairs : List (ℕ × ℕ)) : Decidable (c.PairsUsed pairs) :=
  match c with
  | .mutable c => inferInstanceAs (Decidable
      (∀ pair ∈ pairs, ∀ n ∈ c.list pair.1, n.neighbor = pair.2 → n.alive = true))
  | .singleMutable _ | .immutable _ | .singleImmutable _ => .isTrue trivial

instance [DecidableEq D] (c : Csr D) (vnum : ℕ) : Decidable (c.Covers vnum) :=
  match c with
  | .mutable c => inferInstanceAs (Decidable (∀ l ∈ c.adj.drop vnum, l = []))
  | .singleMutable c => inferInstanceAs (Decidable (∀ n ∈ c.slots.drop vnum, n.alive = false))
  | .immutable c => inferInstanceAs (Decidable (∀ d ∈ c.degrees.drop vnum, d = 0))
  | .singleImmutable c => inferInstanceAs (Decidable (∀ n ∈ c.slots.drop vnum, n.alive = false))

instance [DecidableEq D] (c : Csr D) (l : CsrCall D) : Decidable (c.Counted l) :=
  match l with
  | .putEdge _ _ _ _ | .batchPutEdges _ _ | .revertDeleteEdge _ _ _ _ =>
    inferInstanceAs (Decidable (_ ∧ _))
  | .deleteEdge _ _ _ => inferInstanceAs (Decidable (_ < _))
  | .batchDeleteOffsets edges => inferInstanceAs (Decidable (c.OffsetsUsed edges))
  | .batchDeletePairs pairs => inferInstanceAs (Decidable (c.PairsUsed pairs))
  | .resize vnum _ => inferInstanceAs (Decidable (c.Covers vnum))
  | .batchDeleteVertices _ _ | .compact | .reopen => .isTrue trivial

end Csr

def putDeleteRevert : List (CsrCall ℕ) :=
  [.resize 2 fun _ => (0, 0), .putEdge 0 1 7 1, .putEdge 1 0 8 1, .deleteEdge 0 0 2,
    .revertDeleteEdge 0 1 0 2, .batchDeletePairs [(1, 0)], .compact, .reopen]

theorem edgeNum_putDeleteRevert : ∃ c : Csr ℕ,
    Reach Csr.Initial Csr.step Csr.Counted c ∧ c.liveNum = 1 ∧ c.edgeNum = c.liveNum := by
  have hstart : Reach Csr.Initial Csr.step Csr.Counted (.mutable .empty : Csr ℕ) :=
    .init (.inl rfl)
  obtain ⟨c, hreach, hlive⟩ := hstart.exists_of_execute putDeleteRevert
    (fun c => c.liveNum = 1) (by decide +kernel)
  exact ⟨c, hreach, hlive, Csr.edgeNum_eq_liveNum hreach⟩

/-- An edge is put and deleted; then the edges between its end points are deleted. -/
theorem edgeNum_deleted_twice :
    (execute Csr.step [.resize 2 fun _ => (0, 0), .putEdge 0 1 7 1, .deleteEdge 0 0 2,
      .batchDeletePairs [(0, 1)]] (.mutable .empty : Csr ℕ)).map
        (fun c => (c.edgeNum, c.liveNum)) = some (-1, 0) := by
  decide +kernel

end Neug.Storage
