import Neug.Storage.ImmutableCsr

/-! `SingleMutableCsr` and `SingleImmutableCsr`: one slot for each vertex. A slot without an edge
has the timestamp of a tombstone, or the largest id as neighbor. -/
namespace Neug.Storage
open Neug.Lib List Option

structure SingleMutableCsr (D : Type) where
  slots : List (Nbr D)
  edgeNum : ℤ
  deriving DecidableEq, Repr

structure SingleImmutableCsr (D : Type) where
  slots : List (ImmutableNbr D)
  edgeNum : ℤ
  deriving DecidableEq, Repr

variable {D : Type}

@[simp] theorem Nbr.alive_tombstone (n : Nbr D) : n.tombstone.alive = false := by
  simp [alive, tombstone]

theorem Nbr.alive_iff {n : Nbr D} : n.alive = true ↔ n.timestamp ≠ invalidTimestamp := by
  simp [alive]

section

variable {α : Type} {p : α → Bool} {slots : List α}

theorem sub_countP_set {i : ℕ} {n : α} (hn : slots[i]? = some n) (x : α) {a b : ℤ}
    (hnum : a + (if p n then 1 else 0) = b + if p x then 1 else 0) :
    a - (slots.set i x).countP p = b - slots.countP p := by
  have hcount := countP_set_add (p := p) hn x
  split_ifs at hnum hcount <;> omega

theorem countP_take_append {k : ℕ} {extra : List α} (hdrop : ∀ n ∈ slots.drop k, p n = false)
    (hextra : extra.countP p = 0) : (slots.take k ++ extra).countP p = slots.countP p := by
  have hgone : (slots.drop k).countP p = 0 := by simpa using hdrop
  nth_rw 2 [← take_append_drop k slots]
  rw [countP_append, countP_append, hgone, hextra]

end

namespace SingleMutableCsr

def empty : SingleMutableCsr D := ⟨[], 0⟩

/-- `vertex_capacity`. -/
def size (c : SingleMutableCsr D) : ℕ := c.slots.length

/-- `resize`. A new slot keeps the neighbor and the data that the memory holds. -/
def resize (c : SingleMutableCsr D) (vnum : ℕ) (memory : ℕ → ℕ × D) : SingleMutableCsr D :=
  { c with slots := c.slots.take vnum ++ (List.range' c.size (vnum - c.size)).map fun v =>
      ⟨(memory v).1, invalidTimestamp, (memory v).2⟩ }

/-- `put_edge`. No result stands for the check that the slot is free. -/
def putEdge (c : SingleMutableCsr D) (src dst : ℕ) (data : D) (ts : ℕ) :
    Option (Except CsrError (SingleMutableCsr D)) :=
  match c.slots[src]? with
  | none => some (.error (.sourceOutOfRange src c.size))
  | some n =>
    if n.alive then none
    else some (.ok ⟨c.slots.set src ⟨dst, ts, data⟩, c.edgeNum + 1⟩)

/-- One round of `batch_put_edges`. A slot in use is written over and counted once more. -/
def putRow (ts : ℕ) (c : SingleMutableCsr D) (row : ℕ × ℕ × D) : SingleMutableCsr D :=
  if row.1 < c.size then ⟨c.slots.set row.1 ⟨row.2.1, ts, row.2.2⟩, c.edgeNum + 1⟩ else c

def batchPutEdges (c : SingleMutableCsr D) (rows : List (ℕ × ℕ × D)) (ts : ℕ) :
    SingleMutableCsr D :=
  rows.foldl (putRow ts) c

/-- `delete_edge`. The offset is only asserted to be zero. -/
def deleteEdge (c : SingleMutableCsr D) (src ts : ℕ) : Except CsrError (SingleMutableCsr D) :=
  match c.slots[src]? with
  | none => .error .outOfBound
  | some n =>
    if n.timestamp ≤ ts then .ok ⟨c.slots.set src n.tombstone, c.edgeNum - 1⟩ else .ok c

def revertDeleteEdge (c : SingleMutableCsr D) (src nbr offset ts : ℕ) :
    Except CsrError (SingleMutableCsr D) :=
  match c.slots[src]? with
  | none => .error .outOfBound
  | some n =>
    if offset ≠ 0 then .error .outOfBound
    else if n.neighbor ≠ nbr then .error .neighborNotMatch
    else if n.timestamp = invalidTimestamp then
      .ok ⟨c.slots.set src { n with timestamp := ts }, c.edgeNum + 1⟩
    else .error .notDeleted

/-- One offset of `batch_delete_edges`. The count goes down for a free slot as well. -/
def dropSlot (c : SingleMutableCsr D) (edge : ℕ × ℕ) : SingleMutableCsr D :=
  match c.slots[edge.1]? with
  | none => c
  | some n => ⟨c.slots.set edge.1 n.tombstone, c.edgeNum - 1⟩

def batchDeleteOffsets (c : SingleMutableCsr D) (edges : List (ℕ × ℕ)) : SingleMutableCsr D :=
  edges.foldl dropSlot c

def dropPair (c : SingleMutableCsr D) (pair : ℕ × ℕ) : SingleMutableCsr D :=
  match c.slots[pair.1]? with
  | none => c
  | some n =>
    if n.neighbor = pair.2 then
      ⟨c.slots.set pair.1 n.tombstone, if n.alive then c.edgeNum - 1 else c.edgeNum⟩
    else c

def batchDeletePairs (c : SingleMutableCsr D) (pairs : List (ℕ × ℕ)) : SingleMutableCsr D :=
  pairs.foldl dropPair c

def dropWhere (c : SingleMutableCsr D) (q : ℕ → Nbr D → Bool) : SingleMutableCsr D :=
  ⟨c.slots.mapIdx fun v n => if q v n then n.tombstone else n,
    c.edgeNum - (c.slots.mapIdx fun v n => q v n && n.alive).countP id⟩

def batchDeleteVertices (c : SingleMutableCsr D) (srcSet dstSet : Finset ℕ) :
    SingleMutableCsr D :=
  (c.dropWhere fun v _ => v ∈ srcSet).dropWhere fun _ n => n.neighbor ∈ dstSet

def view (c : SingleMutableCsr D) (t : ℕ) : List (ℕ × ℕ × D) :=
  (c.slots.mapIdx fun src n =>
    if n.visible t then [(src, n.neighbor, n.data)] else []).flatten

def liveNum (c : SingleMutableCsr D) : ℕ := c.slots.countP Nbr.alive
def surplus (c : SingleMutableCsr D) : ℤ := c.edgeNum - c.liveNum

variable {c c' : SingleMutableCsr D}

theorem surplus_set {src : ℕ} {n : Nbr D} (hn : c.slots[src]? = some n) (x : Nbr D) {edgeNum : ℤ}
    (hnum : edgeNum + (if n.alive then 1 else 0) = c.edgeNum + if x.alive then 1 else 0) :
    (⟨c.slots.set src x, edgeNum⟩ : SingleMutableCsr D).surplus = c.surplus :=
  sub_countP_set hn x hnum

theorem surplus_resize {vnum : ℕ} (hdrop : ∀ n ∈ c.slots.drop vnum, n.alive = false)
    (memory : ℕ → ℕ × D) : (c.resize vnum memory).surplus = c.surplus := by
  rw [surplus, surplus, liveNum, liveNum, resize, countP_take_append hdrop
    (by simp [Nbr.alive])]

theorem surplus_putEdge {src dst ts : ℕ} {data : D} (hts : ts ≠ invalidTimestamp)
    (hrun : c.putEdge src dst data ts = some (.ok c')) : c'.surplus = c.surplus := by
  unfold putEdge at hrun
  split at hrun
  · simp at hrun
  · next n hn =>
    split_ifs at hrun with ha
    obtain rfl := Except.ok.inj (some.inj hrun)
    exact surplus_set hn _ (by rw [if_neg ha, if_pos (Nbr.alive_iff.mpr hts)]; omega)

/-- Calls one after another that each set a slot of their own. -/
theorem surplus_foldl {β : Type} {f : SingleMutableCsr D → ℕ × β → SingleMutableCsr D} {b : Bool}
    (hnone : ∀ c r, c.slots[r.1]? = none → f c r = c)
    (hsome : ∀ c r n, c.slots[r.1]? = some n → n.alive = b →
      ∃ x, (f c r).slots = c.slots.set r.1 x ∧ (f c r).surplus = c.surplus)
    {rows : List (ℕ × β)} (hrows : ∀ r ∈ rows, ∀ n, c.slots[r.1]? = some n → n.alive = b)
    (hdistinct : rows.Pairwise fun r r' => r.1 = r'.1 → c.size ≤ r.1) :
    (rows.foldl f c).surplus = c.surplus := by
  induction rows generalizing c with
  | nil => rfl
  | cons row rows ih =>
    obtain ⟨hrow, hrest⟩ := pairwise_cons.mp hdistinct
    rw [foldl_cons]
    cases hn : c.slots[row.1]? with
    | none =>
      rw [hnone c row hn]
      exact ih (fun r hr => hrows r (mem_cons_of_mem _ hr)) hrest
    | some n =>
      have hsrc : row.1 < c.size := (List.getElem?_eq_some_iff.mp hn).1
      obtain ⟨x, hslots, hsurplus⟩ := hsome c row n hn (hrows row mem_cons_self n hn)
      refine (ih ?_ ?_).trans hsurplus
      · intro r hr m hm
        have hne : row.1 ≠ r.1 := fun heq => absurd (hrow r hr heq) (by omega)
        rw [hslots, getElem?_set_ne hne] at hm
        exact hrows r (mem_cons_of_mem _ hr) m hm
      · simpa [size, hslots] using hrest

theorem surplus_batchPutEdges {rows : List (ℕ × ℕ × D)} {ts : ℕ} (hts : ts ≠ invalidTimestamp)
    (hfree : ∀ row ∈ rows, ∀ n, c.slots[row.1]? = some n → n.alive = false)
    (hdistinct : rows.Pairwise fun r r' => r.1 = r'.1 → c.size ≤ r.1) :
    (c.batchPutEdges rows ts).surplus = c.surplus := by
  refine surplus_foldl (fun c r hr => ?_) (fun c r n hn ha => ?_) hfree hdistinct
  · exact if_neg (getElem?_eq_none_iff.mp hr).not_gt
  · have hsrc : r.1 < c.size := (List.getElem?_eq_some_iff.mp hn).1
    rw [putRow, if_pos hsrc]
    refine ⟨_, rfl, surplus_set hn _ ?_⟩
    simp [ha, Nbr.alive_iff, hts]

theorem surplus_deleteEdge {src ts : ℕ} (hts : ts < invalidTimestamp)
    (hrun : c.deleteEdge src ts = .ok c') : c'.surplus = c.surplus := by
  unfold deleteEdge at hrun
  split at hrun
  · cases hrun
  · next n hn =>
    split_ifs at hrun with hvis
    · cases hrun
      have ha : n.alive = true := Nbr.alive_iff.mpr (by omega)
      exact surplus_set hn _ (by simp [ha])
    · cases hrun
      rfl

theorem surplus_revertDeleteEdge {src nbr offset ts : ℕ} (hts : ts ≠ invalidTimestamp)
    (hrun : c.revertDeleteEdge src nbr offset ts = .ok c') : c'.surplus = c.surplus := by
  unfold revertDeleteEdge at hrun
  split at hrun
  · cases hrun
  · next n hn =>
    split_ifs at hrun with hoff hnbr hdead
    cases hrun
    have ha : ¬ n.alive = true := by simp [Nbr.alive, hdead]
    exact surplus_set hn _ (by rw [if_neg ha, if_pos (Nbr.alive_iff.mpr hts)]; omega)

theorem surplus_batchDeleteOffsets {edges : List (ℕ × ℕ)}
    (hused : ∀ e ∈ edges, ∀ n, c.slots[e.1]? = some n → n.alive)
    (hdistinct : edges.Pairwise fun e e' => e.1 = e'.1 → c.size ≤ e.1) :
    (c.batchDeleteOffsets edges).surplus = c.surplus := by
  refine surplus_foldl (fun c e he => ?_) (fun c e n hn ha => ?_) hused hdistinct
  · rw [dropSlot, he]
  · rw [dropSlot, hn]
    exact ⟨_, rfl, surplus_set hn n.tombstone (by simp [ha])⟩

theorem surplus_batchDeletePairs (c : SingleMutableCsr D) (pairs : List (ℕ × ℕ)) :
    (c.batchDeletePairs pairs).surplus = c.surplus := by
  refine foldl_fixes surplus pairs (fun c pair _ => ?_) c
  unfold dropPair
  split
  · rfl
  · next n hn =>
    by_cases hnbr : n.neighbor = pair.2
    · rw [if_pos hnbr]
      exact surplus_set hn _ (by cases ha : n.alive <;> simp)
    · rw [if_neg hnbr]

theorem surplus_dropWhere (c : SingleMutableCsr D) (q : ℕ → Nbr D → Bool) :
    (c.dropWhere q).surplus = c.surplus := by
  have hcount : (c.dropWhere q).liveNum +
      (c.slots.mapIdx fun v n => q v n && n.alive).countP id = c.liveNum := by
    refine countP_mapIdx_add (fun v n => ?_) c.slots
    by_cases hq : q v n <;> cases ha : n.alive <;> simp [hq, ha]
  change c.edgeNum - _ - ((c.dropWhere q).liveNum) = c.edgeNum - c.liveNum
  omega

theorem surplus_batchDeleteVertices (c : SingleMutableCsr D) (srcSet dstSet : Finset ℕ) :
    (c.batchDeleteVertices srcSet dstSet).surplus = c.surplus :=
  (surplus_dropWhere _ _).trans (surplus_dropWhere _ _)

theorem view_batchDeleteVertices (c : SingleMutableCsr D) (srcSet dstSet : Finset ℕ) {t : ℕ}
    (ht : t < invalidTimestamp) : (c.batchDeleteVertices srcSet dstSet).view t =
      (c.view t).filter fun e => e.1 ∉ srcSet ∧ e.2.1 ∉ dstSet := by
  rw [view, view, filter_flatten]
  congr 1
  apply ext_getElem?
  intro v
  simp only [batchDeleteVertices, dropWhere, getElem?_mapIdx, getElem?_map]
  cases c.slots[v]? with
  | none => rfl
  | some n =>
    by_cases hsrc : v ∈ srcSet <;> by_cases hdst : n.neighbor ∈ dstSet <;>
      by_cases hvis : n.timestamp ≤ t <;>
      simp [hsrc, hdst, hvis, Nbr.visible, Nbr.tombstone, ht]

end SingleMutableCsr

namespace SingleImmutableCsr

def empty : SingleImmutableCsr D := ⟨[], 0⟩
def size (c : SingleImmutableCsr D) : ℕ := c.slots.length

/-- `resize`. A new slot keeps the data that the memory holds. -/
def resize (c : SingleImmutableCsr D) (vnum : ℕ) (memory : ℕ → D) : SingleImmutableCsr D :=
  { c with slots := c.slots.take vnum ++ (List.range' c.size (vnum - c.size)).map fun v =>
      ⟨invalidVid, memory v⟩ }

/-- One round of `batch_put_edges`. A slot in use is kept. -/
def putRow (c : SingleImmutableCsr D) (row : ℕ × ImmutableNbr D) : SingleImmutableCsr D :=
  match c.slots[row.1]? with
  | none => c
  | some n => if n.alive then c else ⟨c.slots.set row.1 row.2, c.edgeNum + 1⟩

def batchPutEdges (c : SingleImmutableCsr D) (rows : List (ℕ × ImmutableNbr D)) :
    SingleImmutableCsr D :=
  rows.foldl putRow c

def deleteEdge (c : SingleImmutableCsr D) (src offset : ℕ) :
    Except CsrError (SingleImmutableCsr D) :=
  match c.slots[src]? with
  | none => .error .outOfBound
  | some n =>
    if offset ≠ 0 then .error .outOfBound
    else if n.alive then .ok ⟨c.slots.set src n.erase, c.edgeNum - 1⟩ else .ok c

def revertDeleteEdge (c : SingleImmutableCsr D) (src nbr offset : ℕ) :
    Except CsrError (SingleImmutableCsr D) :=
  match c.slots[src]? with
  | none => .error .outOfBound
  | some n =>
    if offset ≠ 0 then .error .outOfBound
    else if n.alive then .error .notDeleted
    else .ok ⟨c.slots.set src { n with neighbor := nbr }, c.edgeNum + 1⟩

def dropSlot (c : SingleImmutableCsr D) (edge : ℕ × ℕ) : SingleImmutableCsr D :=
  match c.slots[edge.1]? with
  | none => c
  | some n => if n.alive then ⟨c.slots.set edge.1 n.erase, c.edgeNum - 1⟩ else c

def batchDeleteOffsets (c : SingleImmutableCsr D) (edges : List (ℕ × ℕ)) :
    SingleImmutableCsr D :=
  edges.foldl dropSlot c

def dropPair (c : SingleImmutableCsr D) (pair : ℕ × ℕ) : SingleImmutableCsr D :=
  match c.slots[pair.1]? with
  | none => c
  | some n =>
    if n.neighbor = pair.2 ∧ n.alive then ⟨c.slots.set pair.1 n.erase, c.edgeNum - 1⟩ else c

def batchDeletePairs (c : SingleImmutableCsr D) (pairs : List (ℕ × ℕ)) : SingleImmutableCsr D :=
  pairs.foldl dropPair c

def dropWhere (c : SingleImmutableCsr D) (q : ℕ → ImmutableNbr D → Bool) :
    SingleImmutableCsr D :=
  ⟨c.slots.mapIdx fun v n => if q v n && n.alive then n.erase else n,
    c.edgeNum - (c.slots.mapIdx fun v n => q v n && n.alive).countP id⟩

def batchDeleteVertices (c : SingleImmutableCsr D) (srcSet dstSet : Finset ℕ) :
    SingleImmutableCsr D :=
  (c.dropWhere fun v _ => v ∈ srcSet).dropWhere fun _ n => n.neighbor ∈ dstSet

def view (c : SingleImmutableCsr D) : List (ℕ × ℕ × D) :=
  (c.slots.mapIdx fun src n => if n.alive then [(src, n.neighbor, n.data)] else []).flatten

def liveNum (c : SingleImmutableCsr D) : ℕ := c.slots.countP ImmutableNbr.alive
def surplus (c : SingleImmutableCsr D) : ℤ := c.edgeNum - c.liveNum

variable {c c' : SingleImmutableCsr D}

theorem surplus_set {src : ℕ} {n : ImmutableNbr D} (hn : c.slots[src]? = some n)
    (x : ImmutableNbr D) {edgeNum : ℤ}
    (hnum : edgeNum + (if n.alive then 1 else 0) = c.edgeNum + if x.alive then 1 else 0) :
    (⟨c.slots.set src x, edgeNum⟩ : SingleImmutableCsr D).surplus = c.surplus :=
  sub_countP_set hn x hnum

theorem surplus_resize {vnum : ℕ} (hdrop : ∀ n ∈ c.slots.drop vnum, n.alive = false)
    (memory : ℕ → D) : (c.resize vnum memory).surplus = c.surplus := by
  rw [surplus, surplus, liveNum, liveNum, resize, countP_take_append hdrop
    (by simp [ImmutableNbr.alive])]

theorem surplus_batchPutEdges {rows : List (ℕ × ImmutableNbr D)}
    (hrows : ∀ row ∈ rows, row.2.alive) : (c.batchPutEdges rows).surplus = c.surplus := by
  refine foldl_fixes surplus rows (fun c row hrow => ?_) c
  unfold putRow
  split
  · rfl
  · next n hn =>
    by_cases ha : n.alive
    · rw [if_pos ha]
    · rw [if_neg ha]
      exact surplus_set hn _ (by simp [ha, hrows row hrow])

theorem surplus_deleteEdge {src offset : ℕ} (hrun : c.deleteEdge src offset = .ok c') :
    c'.surplus = c.surplus := by
  unfold deleteEdge at hrun
  split at hrun
  · cases hrun
  · next n hn =>
    split_ifs at hrun with hoff ha
    · cases hrun
      exact surplus_set hn _ (by simp [ha])
    · cases hrun
      rfl

theorem surplus_revertDeleteEdge {src nbr offset : ℕ} (hnbr : nbr ≠ invalidVid)
    (hrun : c.revertDeleteEdge src nbr offset = .ok c') : c'.surplus = c.surplus := by
  unfold revertDeleteEdge at hrun
  split at hrun
  · cases hrun
  · next n hn =>
    split_ifs at hrun with hoff ha
    cases hrun
    have hback : ({ n with neighbor := nbr }).alive := by
      simpa [ImmutableNbr.alive] using hnbr
    exact surplus_set hn _ (by simp [ha, hback])

theorem surplus_batchDeleteOffsets (c : SingleImmutableCsr D) (edges : List (ℕ × ℕ)) :
    (c.batchDeleteOffsets edges).surplus = c.surplus := by
  refine foldl_fixes surplus edges (fun c e _ => ?_) c
  unfold dropSlot
  split
  · rfl
  · next n hn =>
    by_cases ha : n.alive
    · rw [if_pos ha]
      exact surplus_set hn _ (by simp [ha])
    · rw [if_neg ha]

theorem surplus_batchDeletePairs (c : SingleImmutableCsr D) (pairs : List (ℕ × ℕ)) :
    (c.batchDeletePairs pairs).surplus = c.surplus := by
  refine foldl_fixes surplus pairs (fun c pair _ => ?_) c
  unfold dropPair
  split
  · rfl
  · next n hn =>
    by_cases ha : n.neighbor = pair.2 ∧ n.alive
    · rw [if_pos ha]
      exact surplus_set hn _ (by simp [ha.2])
    · rw [if_neg ha]

theorem surplus_dropWhere (c : SingleImmutableCsr D) (q : ℕ → ImmutableNbr D → Bool) :
    (c.dropWhere q).surplus = c.surplus := by
  have hcount : (c.dropWhere q).liveNum +
      (c.slots.mapIdx fun v n => q v n && n.alive).countP id = c.liveNum := by
    refine countP_mapIdx_add (fun v n => ?_) c.slots
    by_cases hq : q v n <;> cases ha : n.alive <;> simp [hq, ha]
  change c.edgeNum - _ - ((c.dropWhere q).liveNum) = c.edgeNum - c.liveNum
  omega

theorem surplus_batchDeleteVertices (c : SingleImmutableCsr D) (srcSet dstSet : Finset ℕ) :
    (c.batchDeleteVertices srcSet dstSet).surplus = c.surplus :=
  (surplus_dropWhere _ _).trans (surplus_dropWhere _ _)

theorem view_batchDeleteVertices (c : SingleImmutableCsr D) (srcSet dstSet : Finset ℕ) :
    (c.batchDeleteVertices srcSet dstSet).view =
      c.view.filter fun e => e.1 ∉ srcSet ∧ e.2.1 ∉ dstSet := by
  rw [view, view, filter_flatten]
  congr 1
  apply ext_getElem?
  intro v
  simp only [batchDeleteVertices, dropWhere, getElem?_mapIdx, getElem?_map]
  cases c.slots[v]? with
  | none => rfl
  | some n =>
    by_cases hsrc : v ∈ srcSet <;> by_cases hdst : n.neighbor ∈ dstSet <;>
      cases ha : n.alive <;> simp [hsrc, hdst, ha]

end SingleImmutableCsr

end Neug.Storage
