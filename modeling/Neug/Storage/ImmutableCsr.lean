import Neug.Lib.Segments
import Neug.Storage.MutableCsr

/-! `ImmutableCsr`: the adjacency lists stand one behind another in one buffer, and a second one
holds the pointers to them. The neighbor of a deleted entry is the largest id. -/
namespace Neug.Storage
open Neug.Lib List Option

/-- `std::numeric_limits<vid_t>::max()`. -/
def invalidVid : ℕ := 2 ^ 32 - 1

structure ImmutableNbr (D : Type) where
  neighbor : ℕ
  data : D
  deriving DecidableEq, Repr

variable {D : Type}

namespace ImmutableNbr

def alive (n : ImmutableNbr D) : Bool := n.neighbor ≠ invalidVid
def erase (n : ImmutableNbr D) : ImmutableNbr D := { n with neighbor := invalidVid }

@[simp] theorem alive_erase (n : ImmutableNbr D) : n.erase.alive = false := by
  simp [alive, erase]

end ImmutableNbr

/-- The members of `ImmutableCsr`. A pointer is an offset into the buffer of the entries, or
null. -/
structure ImmutableCsr (D : Type) where
  nbrs : List (ImmutableNbr D)
  degrees : List ℕ
  starts : List (Option ℕ)
  edgeNum : ℤ
  unsortedSince : ℕ
  deriving DecidableEq, Repr

namespace ImmutableCsr

def empty : ImmutableCsr D := ⟨[], [], [], 0, 0⟩
def size (c : ImmutableCsr D) : ℕ := c.degrees.length

def list (c : ImmutableCsr D) (v : ℕ) : List (ImmutableNbr D) :=
  match (c.starts[v]?).join with
  | some s => (c.nbrs.drop s).take (c.degrees.getD v 0)
  | none => []

/-- The pointers that `open_internal` sets: null for an empty list. -/
def openStarts (at' : ℕ) : List ℕ → List (Option ℕ)
  | [] => []
  | deg :: degs => (if deg ≠ 0 then some at' else none) :: openStarts (at' + deg) degs

def reopen (c : ImmutableCsr D) : ImmutableCsr D := { c with starts := openStarts 0 c.degrees }

def resize (c : ImmutableCsr D) (vnum : ℕ) : ImmutableCsr D :=
  { c with degrees := fit 0 vnum c.degrees, starts := fit none vnum c.starts }

/-- The writes of `compact`: none before an entry was removed, then through a pointer that started
at the list of the first vertex. No result stands for a null pointer. -/
def compactPut (base : Option ℕ) (removed write : ℕ) (n : ImmutableNbr D)
    (buf : List (ImmutableNbr D)) : Option (List (ImmutableNbr D)) :=
  if removed = 0 then some buf else base.map fun b => buf.set (b + write) n

/-- The loop of `compact` over the vertices, with the degrees it leaves. -/
def compactLists (base : Option ℕ) :
    List (ℕ × Option ℕ) → ℕ → ℕ → List (ImmutableNbr D) →
      Option (List ℕ × ℕ × List (ImmutableNbr D))
  | [], _, removed, buf => some ([], removed, buf)
  | (deg, start) :: rest, write, removed, buf =>
    if deg = 0 then (compactLists base rest write removed buf).map fun r => (0 :: r.1, r.2)
    else start.bind fun s =>
      (slide ImmutableNbr.alive (compactPut base) deg s write removed buf).bind fun r =>
        (compactLists base rest r.2.1 r.2.2 r.1).map fun q =>
          ((deg - (r.2.2 - removed)) :: q.1, q.2)

/-- The last loop of `compact` and of `batch_delete_vertices`, after the buffer was cut. -/
def repoint (c : ImmutableCsr D) (degrees : List ℕ) (removed : ℕ)
    (buf : List (ImmutableNbr D)) : ImmutableCsr D :=
  { c with nbrs := buf.take (buf.length - removed)
           degrees := degrees
           starts := (segmentStarts 0 degrees).map some }

def compact (c : ImmutableCsr D) : Option (ImmutableCsr D) :=
  if c.size = 0 then some c
  else (compactLists c.starts.head?.join (c.degrees.zip c.starts) 0 0 c.nbrs).map fun r =>
    c.repoint r.1 r.2.1 r.2.2

/-- The loop of `batch_delete_vertices` over the vertices from `v` on. The entries of a source in
the set are counted; in the other lists the entries that stay are moved down by the number of
entries removed before. -/
def deleteLists (srcSet dstSet : Finset ℕ) :
    ℕ → List (ℕ × Option ℕ) → ℕ → ℤ → List (ImmutableNbr D) →
      Option (List ℕ × ℕ × ℤ × List (ImmutableNbr D))
  | _, [], removed, edgeNum, buf => some ([], removed, edgeNum, buf)
  | v, (deg, start) :: rest, removed, edgeNum, buf =>
    if deg = 0 then (deleteLists srcSet dstSet (v + 1) rest removed edgeNum buf).map
      fun r => (0 :: r.1, r.2)
    else start.bind fun s => (slice buf s deg).bind fun l =>
      if v ∈ srcSet then
        (deleteLists srcSet dstSet (v + 1) rest (removed + deg)
          (edgeNum - l.countP ImmutableNbr.alive) buf).map fun r => (0 :: r.1, r.2)
      else if s < removed then none
      else (slide (fun n => n.neighbor ∉ dstSet) (fun _ write n buf => some (buf.set write n))
          deg s (s - removed) removed buf).bind fun r =>
        (deleteLists srcSet dstSet (v + 1) rest r.2.2
          (edgeNum - l.countP fun n => n.alive ∧ n.neighbor ∈ dstSet) r.1).map fun q =>
            ((deg - (r.2.2 - removed)) :: q.1, q.2)

def batchDeleteVertices (c : ImmutableCsr D) (srcSet dstSet : Finset ℕ) :
    Option (ImmutableCsr D) :=
  (deleteLists srcSet dstSet 0 (c.degrees.zip c.starts) 0 c.edgeNum c.nbrs).map fun r =>
    { c.repoint r.1 r.2.1 r.2.2.2 with edgeNum := r.2.2.1 }

/-- A list after `batch_delete_edges` by end points. -/
def erasePairs (pairs : List (ℕ × ℕ)) (v : ℕ) (l : List (ImmutableNbr D)) :
    List (ImmutableNbr D) :=
  l.map fun n => if n.alive ∧ (v, n.neighbor) ∈ pairs then n.erase else n

def batchDeletePairs (c : ImmutableCsr D) (pairs : List (ℕ × ℕ)) : Option (ImmutableCsr D) :=
  (rewriteLists (erasePairs pairs) 0 (c.degrees.zip c.starts) c.nbrs).map fun buf =>
    { c with
      nbrs := buf
      edgeNum := c.edgeNum - ((List.range c.size).map fun v =>
        (c.list v).countP fun n => n.alive ∧ (v, n.neighbor) ∈ pairs).sum }

/-- A list after `batch_delete_edges` by offsets. -/
def eraseOffsets (edges : List (ℕ × ℕ)) (v : ℕ) (l : List (ImmutableNbr D)) :
    List (ImmutableNbr D) :=
  l.mapIdx fun j n => if (v, j) ∈ edges then n.erase else n

/-- `batch_delete_edges` by offsets. The count goes down for every offset, for deleted entries as
well. -/
def batchDeleteOffsets (c : ImmutableCsr D) (edges : List (ℕ × ℕ)) : Option (ImmutableCsr D) :=
  (rewriteLists (eraseOffsets edges) 0 (c.degrees.zip c.starts) c.nbrs).map fun buf =>
    { c with
      nbrs := buf
      edgeNum := c.edgeNum - ((List.range c.size).map fun v =>
        (List.range (c.list v).length).countP fun j => (v, j) ∈ edges).sum }

/-- The place of an entry in the buffer; `none` stands for a vertex or an offset out of bound. -/
def place (c : ImmutableCsr D) (src offset : ℕ) : Option ℕ :=
  if c.degrees.getD src 0 ≤ offset then none else ((c.starts[src]?).join).map (· + offset)

def deleteEdge (c : ImmutableCsr D) (src offset : ℕ) : Except CsrError (ImmutableCsr D) :=
  match (c.place src offset).bind fun p => (c.nbrs[p]?).map fun n => (p, n) with
  | none => .error .outOfBound
  | some (p, n) =>
    if n.alive then .ok { c with nbrs := c.nbrs.set p n.erase, edgeNum := c.edgeNum - 1 }
    else .ok c

def revertDeleteEdge (c : ImmutableCsr D) (src nbr offset : ℕ) :
    Except CsrError (ImmutableCsr D) :=
  match (c.place src offset).bind fun p => (c.nbrs[p]?).map fun n => (p, n) with
  | none => .error .outOfBound
  | some (p, n) =>
    if n.alive then .error .notDeleted
    else .ok { c with nbrs := c.nbrs.set p { n with neighbor := nbr }, edgeNum := c.edgeNum + 1 }

/-- `batch_put_edges`. The entries of the new memory are written before they are read. No result
stands for a source without a degree. -/
def batchPutEdges (c : ImmutableCsr D) (rows : List (ℕ × ImmutableNbr D)) :
    Option (ImmutableCsr D) :=
  if rows.any fun row => c.size ≤ row.1 then none
  else
    let degrees := c.degrees.mapIdx fun v deg => deg + rows.countP fun row => row.1 = v
    (spread (c.degrees.zip degrees).reverse (c.nbrs.length + rows.length) c.nbrs.length
        (c.nbrs ++ rows.map Prod.snd)).bind fun r =>
      (placeRows r.1 rows c.degrees r.2).map fun buf =>
        { c with nbrs := buf, degrees := degrees, starts := r.1.map some
                 edgeNum := c.edgeNum + rows.length }

def view (c : ImmutableCsr D) : List (ℕ × ℕ × D) :=
  (List.range c.size).flatMap fun src =>
    ((c.list src).filter ImmutableNbr.alive).map fun n => (src, n.neighbor, n.data)

def liveNum (c : ImmutableCsr D) : ℕ :=
  ((List.range c.size).map fun v => (c.list v).countP ImmutableNbr.alive).sum

def surplus (c : ImmutableCsr D) : ℤ := c.edgeNum - c.liveNum

structure Laid (c : ImmutableCsr D) (lists : List (List (ImmutableNbr D))) : Prop where
  nbrs : c.nbrs = lists.flatten
  degrees : c.degrees = lists.map List.length
  starts : Pointers 0 lists c.starts

variable {c c' : ImmutableCsr D} {lists : List (List (ImmutableNbr D))}

theorem Laid.size_eq (h : c.Laid lists) : c.size = lists.length := by
  rw [size, h.degrees, length_map]

theorem Laid.list_eq (h : c.Laid lists) (v : ℕ) : c.list v = lists.getD v [] := by
  have hlen := h.starts.length_eq
  by_cases hv : v < lists.length
  · obtain ⟨l, hl⟩ : ∃ l, lists[v]? = some l := ⟨_, getElem?_eq_getElem hv⟩
    obtain ⟨s, hs⟩ : ∃ s, c.starts[v]? = some s := ⟨_, getElem?_eq_getElem (hlen ▸ hv)⟩
    have hdeg : c.degrees.getD v 0 = l.length := by simp [h.degrees, hl]
    have hget : lists.getD v [] = l := by simp [hl]
    rw [hget, list, hs, hdeg, h.nbrs]
    cases s with
    | none => exact (h.starts.eq_nil hl hs).symm
    | some s =>
      have hslice : slice ([] ++ lists.flatten) s l.length = some l :=
        h.starts.slice_eq length_nil hl hs
      exact (slice_eq_some.mp hslice).2
  · have hs : c.starts[v]? = none := getElem?_eq_none (by omega)
    have hget : lists.getD v [] = [] := by simp [not_lt.mp hv]
    rw [hget, list, hs]
    rfl

theorem Laid.map_range {β : Type} (h : c.Laid lists) (g : ℕ → List (ImmutableNbr D) → β) :
    ((range c.size).map fun v => g v (c.list v)) = lists.mapIdx g := by
  apply ext_getElem?
  intro v
  rw [h.size_eq]
  by_cases hv : v < lists.length
  · simp [hv, h.list_eq]
  · simp [hv]

theorem Laid.liveNum_eq (h : c.Laid lists) :
    c.liveNum = lists.flatten.countP ImmutableNbr.alive := by
  have hmap : (lists.mapIdx fun _ l => l.countP ImmutableNbr.alive) =
      lists.map (countP ImmutableNbr.alive) := ext_getElem? fun v => by simp
  rw [liveNum, h.map_range fun _ l => l.countP ImmutableNbr.alive, countP_flatten, hmap]

theorem laid_repoint (c : ImmutableCsr D) (lists : List (List (ImmutableNbr D)))
    (gap : List (ImmutableNbr D)) :
    (c.repoint (lists.map length) gap.length (lists.flatten ++ gap)).Laid lists := by
  refine ⟨?_, rfl, pointers_segmentStarts 0 lists⟩
  simp [repoint]

theorem pointers_openStarts (at' : ℕ) (ls : List (List (ImmutableNbr D))) :
    Pointers at' ls (openStarts at' (ls.map length)) := by
  induction ls generalizing at' with
  | nil => trivial
  | cons l ls ih =>
    refine ⟨?_, ih _⟩
    by_cases hl : l.length = 0
    · exact .inr ⟨by simp [hl], eq_nil_of_length_eq_zero hl⟩
    · exact .inl (by simp [hl])

theorem Laid.reopen (h : c.Laid lists) : c.reopen.Laid lists := by
  refine ⟨h.nbrs, h.degrees, ?_⟩
  rw [ImmutableCsr.reopen, h.degrees]
  exact pointers_openStarts 0 lists

theorem Laid.resize (h : c.Laid lists) {vnum : ℕ} (hdrop : ∀ d ∈ c.degrees.drop vnum, d = 0) :
    (c.resize vnum).Laid (fit [] vnum lists) := by
  refine ⟨?_, ?_, h.starts.fit vnum⟩
  · have hnil : (lists.drop vnum).flatten = [] := by
      refine flatten_eq_nil_iff.mpr fun l hl => eq_nil_of_length_eq_zero ?_
      refine hdrop l.length ?_
      rw [h.degrees, ← map_drop]
      exact mem_map_of_mem hl
    calc c.nbrs = (lists.take vnum).flatten ++ (lists.drop vnum).flatten := by
          rw [h.nbrs, ← flatten_append, take_append_drop]
      _ = (fit [] vnum lists).flatten := by simp [hnil, fit]
  · simp [ImmutableCsr.resize, fit, h.degrees]

theorem Laid.surplus_resize (h : c.Laid lists) {vnum : ℕ}
    (hdrop : ∀ d ∈ c.degrees.drop vnum, d = 0) : (c.resize vnum).surplus = c.surplus := by
  have hlaid := h.resize hdrop
  have hflat : (fit [] vnum lists).flatten = lists.flatten := hlaid.nbrs.symm.trans h.nbrs
  rw [surplus, surplus, hlaid.liveNum_eq, h.liveNum_eq, hflat]
  rfl

theorem movesDown_compactPut {base : Option ℕ} (hbase : base = some 0 ∨ base = none) :
    MovesDown (compactPut (D := D) base) := by
  intro out gap n rest buf h
  unfold compactPut at h
  split_ifs at h with hgap
  · cases h
    obtain rfl := eq_nil_of_length_eq_zero hgap
    exact ⟨[], rfl, by simp⟩
  · rcases hbase with rfl | rfl
    · rw [map_some, zero_add] at h
      exact movesDown_set out gap n rest buf h
    · cases h

theorem compactLists_spec {base : Option ℕ} (hbase : base = some 0 ∨ base = none)
    {ls : List (List (ImmutableNbr D))} {ss : List (Option ℕ)} (out gap : List (ImmutableNbr D))
    (h : Pointers (out.length + gap.length) ls ss) {r : List ℕ × ℕ × List (ImmutableNbr D)}
    (hrun : compactLists base ((ls.map length).zip ss) out.length gap.length
      (out ++ gap ++ ls.flatten) = some r) :
    ∃ gap', r = ((ls.map (filter ImmutableNbr.alive)).map length, gap'.length,
      out ++ (ls.map (filter ImmutableNbr.alive)).flatten ++ gap') := by
  induction ls generalizing ss out gap r with
  | nil =>
    cases hrun
    exact ⟨gap, by simp⟩
  | cons l ls ih =>
    cases ss with
    | nil => exact h.elim
    | cons s ss =>
      obtain ⟨hs, hrest⟩ := h
      rw [map_cons, zip_cons_cons, compactLists] at hrun
      split_ifs at hrun with hl
      · obtain rfl := eq_nil_of_length_eq_zero hl
        obtain ⟨q, hq, rfl⟩ := map_eq_some_iff.mp hrun
        obtain ⟨gap', rfl⟩ := ih out gap hrest (by simpa using hq)
        exact ⟨gap', by simp⟩
      · obtain rfl : s = some (out.length + gap.length) :=
          hs.resolve_right fun hnil => hl (by simp [hnil.2])
        rw [bind_some, flatten_cons, ← append_assoc] at hrun
        obtain ⟨p, hslide, hrun⟩ := bind_eq_some_iff.mp hrun
        obtain ⟨gap₁, hgap₁, rfl⟩ := slide_spec (movesDown_compactPut hbase) hslide
        obtain ⟨q, hq, rfl⟩ := map_eq_some_iff.mp hrun
        have hsplit := l.length_eq_length_filter_add ImmutableNbr.alive
        have hpos : (out ++ l.filter ImmutableNbr.alive).length + gap₁.length =
            out.length + gap.length + l.length := by
          rw [length_append]
          omega
        obtain ⟨gap', rfl⟩ := ih (out ++ l.filter ImmutableNbr.alive) gap₁ (hpos ▸ hrest)
          (by rwa [length_append])
        refine ⟨gap', ?_⟩
        simp only [map_cons, flatten_cons, append_assoc, Prod.mk.injEq, cons.injEq, and_true]
        omega

theorem Laid.head?_starts (h : c.Laid lists) :
    c.starts.head?.join = some 0 ∨ c.starts.head?.join = none := by
  have hstarts := h.starts
  cases hl : lists with
  | nil =>
    have := hstarts.length_eq
    rw [hl] at this
    rw [eq_nil_of_length_eq_zero this]
    exact .inr rfl
  | cons l ls =>
    rw [hl] at hstarts
    cases hs : c.starts with
    | nil => exact .inr rfl
    | cons s ss =>
      rw [hs] at hstarts
      rcases hstarts.1 with rfl | ⟨rfl, -⟩
      · exact .inl rfl
      · exact .inr rfl

theorem Laid.compact (h : c.Laid lists) (hrun : c.compact = some c') :
    c'.Laid (lists.map (filter ImmutableNbr.alive)) ∧ c'.surplus = c.surplus := by
  obtain ⟨hlaid, hnum⟩ : c'.Laid (lists.map (filter ImmutableNbr.alive)) ∧
      c'.edgeNum = c.edgeNum := by
    unfold ImmutableCsr.compact at hrun
    split_ifs at hrun with hsize
    · cases hrun
      rw [h.size_eq] at hsize
      obtain rfl := eq_nil_of_length_eq_zero hsize
      exact ⟨h, rfl⟩
    · obtain ⟨r, hr, rfl⟩ := map_eq_some_iff.mp hrun
      rw [h.degrees, h.nbrs] at hr
      obtain ⟨gap, rfl⟩ := compactLists_spec h.head?_starts [] [] h.starts hr
      exact ⟨laid_repoint c _ gap, rfl⟩
  refine ⟨hlaid, ?_⟩
  rw [surplus, surplus, hnum, hlaid.liveNum_eq, h.liveNum_eq, ← filter_flatten, countP_filter]
  simp

/-- What `batch_delete_vertices` leaves of a list. -/
def keptOf (srcSet dstSet : Finset ℕ) (v : ℕ) (l : List (ImmutableNbr D)) :
    List (ImmutableNbr D) :=
  if v ∈ srcSet then [] else l.filter fun n => n.neighbor ∉ dstSet

/-- The entries that `batch_delete_vertices` takes from a list. -/
def goneOf (srcSet dstSet : Finset ℕ) (v : ℕ) (l : List (ImmutableNbr D)) : ℕ :=
  l.countP fun n => n.alive ∧ (v ∈ srcSet ∨ n.neighbor ∈ dstSet)

theorem countP_keptOf (srcSet dstSet : Finset ℕ) (v : ℕ) (l : List (ImmutableNbr D)) :
    (keptOf srcSet dstSet v l).countP ImmutableNbr.alive + goneOf srcSet dstSet v l =
      l.countP ImmutableNbr.alive := by
  unfold keptOf goneOf
  by_cases hv : v ∈ srcSet
  · simp [hv]
  · rw [if_neg hv, countP_eq_countP_filter_add l ImmutableNbr.alive
      (fun n => n.neighbor ∉ dstSet), add_left_cancel_iff, countP_filter]
    simp [hv]

theorem deleteLists_spec (srcSet dstSet : Finset ℕ) (v : ℕ) (edgeNum : ℤ)
    {ls : List (List (ImmutableNbr D))} {ss : List (Option ℕ)} (out gap : List (ImmutableNbr D))
    (h : Pointers (out.length + gap.length) ls ss) :
    ∃ gap', deleteLists srcSet dstSet v ((ls.map length).zip ss) gap.length edgeNum
        (out ++ gap ++ ls.flatten) =
      some ((ls.mapIdx fun i => keptOf srcSet dstSet (v + i)).map length, gap'.length,
        edgeNum - (ls.mapIdx fun i => goneOf srcSet dstSet (v + i)).sum,
        out ++ (ls.mapIdx fun i => keptOf srcSet dstSet (v + i)).flatten ++ gap') := by
  induction ls generalizing ss out gap v edgeNum with
  | nil => exact ⟨gap, by simp [deleteLists]⟩
  | cons l ls ih =>
    cases ss with
    | nil => exact h.elim
    | cons s ss =>
      obtain ⟨hs, hrest⟩ := h
      have hshift : ∀ {β : Type} (f : ℕ → List (ImmutableNbr D) → β),
          (ls.mapIdx fun i => f (v + (i + 1))) = ls.mapIdx fun i => f (v + 1 + i) := by
        simp [add_assoc, add_comm 1]
      simp only [map_cons, zip_cons_cons, mapIdx_cons, flatten_cons, sum_cons, add_zero, hshift]
      by_cases hl : l.length = 0
      · obtain rfl := eq_nil_of_length_eq_zero hl
        obtain ⟨gap', hrun⟩ := ih (v + 1) edgeNum out gap hrest
        refine ⟨gap', ?_⟩
        rw [deleteLists, nil_append, hrun]
        simp [keptOf, goneOf]
      · obtain rfl : s = some (out.length + gap.length) :=
          hs.resolve_right fun hnil => hl (by simp [hnil.2])
        have hslice : slice (out ++ gap ++ (l ++ ls.flatten)) (out.length + gap.length) l.length =
            some l := by
          rw [← append_assoc, slice_append_left (by simp; omega), ← length_append,
            slice_append_right]
        rw [deleteLists, if_neg hl, bind_some, hslice, bind_some]
        by_cases hv : v ∈ srcSet
        · -- the whole list joins the gap
          have hpos : out.length + (gap ++ l).length = out.length + gap.length + l.length := by
            rw [length_append, add_assoc]
          obtain ⟨gap', hrun⟩ := ih (v + 1) (edgeNum - l.countP ImmutableNbr.alive) out (gap ++ l)
            (hpos ▸ hrest)
          refine ⟨gap', ?_⟩
          rw [length_append, ← append_assoc, append_assoc] at hrun
          rw [hrun]
          simp [keptOf, goneOf, hv, sub_sub]
        · have hput : MovesDown fun _ write (n : ImmutableNbr D) buf => some (buf.set write n) :=
            movesDown_set
          have hends : (slide (fun n => n.neighbor ∉ dstSet)
              (fun _ write n buf => some (buf.set write n)) l.length (out.length + gap.length)
              out.length gap.length (out ++ gap ++ l ++ ls.flatten)).isSome :=
            slide_isSome hput (by simp) out gap l ls.flatten
          obtain ⟨p, hslide⟩ := isSome_iff_exists.mp hends
          obtain ⟨gap₁, hgap₁, rfl⟩ := slide_spec hput hslide
          have hkept : keptOf srcSet dstSet v l = l.filter fun n => n.neighbor ∉ dstSet := if_neg hv
          have hgone : goneOf srcSet dstSet v l =
              l.countP fun n => n.alive ∧ n.neighbor ∈ dstSet := by simp [goneOf, hv]
          have hsplit := l.length_eq_length_filter_add fun n => n.neighbor ∉ dstSet
          rw [← hkept] at hsplit
          have hpos : (out ++ keptOf srcSet dstSet v l).length + gap₁.length =
              out.length + gap.length + l.length := by
            rw [length_append]
            omega
          obtain ⟨gap', hrun⟩ := ih (v + 1) (edgeNum - goneOf srcSet dstSet v l)
            (out ++ keptOf srcSet dstSet v l) gap₁ (hpos ▸ hrest)
          refine ⟨gap', ?_⟩
          rw [if_neg hv, if_neg (by omega), Nat.add_sub_cancel, ← append_assoc, hslide,
            bind_some, ← hgone, ← hkept, hrun]
          simp only [map_some, append_assoc, sub_sub, Nat.cast_add, some.injEq,
            Prod.mk.injEq, cons.injEq, and_true]
          omega

theorem Laid.batchDeleteVertices (h : c.Laid lists) (srcSet dstSet : Finset ℕ) :
    ∃ c', c.batchDeleteVertices srcSet dstSet = some c' ∧
      c'.Laid (lists.mapIdx (keptOf srcSet dstSet)) ∧ c'.surplus = c.surplus := by
  have hstarts : Pointers (([] : List (ImmutableNbr D)).length +
      ([] : List (ImmutableNbr D)).length) lists c.starts := h.starts
  obtain ⟨gap, hrun⟩ := deleteLists_spec srcSet dstSet 0 c.edgeNum [] [] hstarts
  simp only [zero_add, nil_append, length_nil, ← h.degrees, ← h.nbrs] at hrun
  have hlaid := laid_repoint { c with
    edgeNum := c.edgeNum - (lists.mapIdx (goneOf srcSet dstSet)).sum }
    (lists.mapIdx (keptOf srcSet dstSet)) gap
  refine ⟨_, by rw [ImmutableCsr.batchDeleteVertices, hrun]; rfl, hlaid, ?_⟩
  have hcount := countP_flatten_mapIdx fun (i : ℕ) l (_ : lists[i]? = some l) =>
    countP_keptOf srcSet dstSet i l
  rw [surplus, surplus, hlaid.liveNum_eq, h.liveNum_eq]
  simp only [repoint]
  omega

theorem Laid.rewrite {lists' : List (List (ImmutableNbr D))} (h : c.Laid lists)
    (hlen : lists'.map length = lists.map length) (edgeNum : ℤ) :
    ({ c with nbrs := lists'.flatten, edgeNum := edgeNum } : ImmutableCsr D).Laid lists' :=
  ⟨rfl, by rw [hlen, ← h.degrees], h.starts.of_lengths hlen⟩

theorem Laid.rewriteLists (h : c.Laid lists) {f : ℕ → List (ImmutableNbr D) →
    List (ImmutableNbr D)} {gone : ℕ → List (ImmutableNbr D) → ℕ}
    (hf : ∀ v l, (f v l).length = l.length) (hgone : ∀ (v : ℕ) l, lists[v]? = some l →
      (f v l).countP ImmutableNbr.alive + gone v l = l.countP ImmutableNbr.alive) :
    ∃ buf, rewriteLists f 0 (c.degrees.zip c.starts) c.nbrs = some buf ∧
      ({ c with
        nbrs := buf
        edgeNum := c.edgeNum - (lists.mapIdx gone).sum } : ImmutableCsr D).Laid
        (lists.mapIdx f) ∧
      ({ c with
        nbrs := buf
        edgeNum := c.edgeNum - (lists.mapIdx gone).sum } : ImmutableCsr D).surplus =
        c.surplus := by
  have hrun := rewriteLists_spec hf 0 h.starts (length_nil)
  have hlen : (lists.mapIdx f).map length = lists.map length :=
    ext_getElem? fun v => by cases hv : lists[v]? <;> simp [hv, hf]
  simp only [nil_append, zero_add, ← h.degrees, ← h.nbrs] at hrun
  have hlaid := h.rewrite hlen (c.edgeNum - (lists.mapIdx gone).sum)
  refine ⟨_, hrun, hlaid, ?_⟩
  have hcount := countP_flatten_mapIdx hgone
  rw [surplus, surplus, hlaid.liveNum_eq, h.liveNum_eq]
  simp only
  omega

@[simp] theorem length_erasePairs (pairs : List (ℕ × ℕ)) (v : ℕ) (l : List (ImmutableNbr D)) :
    (erasePairs pairs v l).length = l.length := length_map _

@[simp] theorem length_eraseOffsets (edges : List (ℕ × ℕ)) (v : ℕ)
    (l : List (ImmutableNbr D)) : (eraseOffsets edges v l).length = l.length := length_mapIdx

theorem countP_erasePairs (pairs : List (ℕ × ℕ)) (v : ℕ) (l : List (ImmutableNbr D)) :
    (erasePairs pairs v l).countP ImmutableNbr.alive +
      l.countP (fun n => n.alive ∧ (v, n.neighbor) ∈ pairs) = l.countP ImmutableNbr.alive := by
  induction l with
  | nil => rfl
  | cons n l ih =>
    simp only [erasePairs, map_cons, countP_cons] at ih ⊢
    by_cases hn : n.alive ∧ (v, n.neighbor) ∈ pairs
    · simp only [hn, and_self, if_true, decide_true, ImmutableNbr.alive_erase,
        Bool.false_eq_true, if_false] at ih ⊢
      omega
    · simp only [hn, if_false, decide_false, Bool.false_eq_true] at ih ⊢
      omega

theorem Laid.batchDeletePairs (h : c.Laid lists) (pairs : List (ℕ × ℕ)) :
    ∃ c', c.batchDeletePairs pairs = some c' ∧ c'.Laid (lists.mapIdx (erasePairs pairs)) ∧
      c'.surplus = c.surplus := by
  obtain ⟨buf, hrun, hlaid, hsurplus⟩ := h.rewriteLists (length_erasePairs pairs)
    fun v l _ => countP_erasePairs pairs v l
  refine ⟨_, ?_, hlaid, hsurplus⟩
  rw [ImmutableCsr.batchDeletePairs, hrun, map_some,
    h.map_range fun v l => l.countP fun n => n.alive ∧ (v, n.neighbor) ∈ pairs]

theorem countP_eraseOffsets {edges : List (ℕ × ℕ)} {v : ℕ} {l : List (ImmutableNbr D)}
    (h : ∀ (j : ℕ) n, (v, j) ∈ edges → l[j]? = some n → n.alive) :
    (eraseOffsets edges v l).countP ImmutableNbr.alive +
      (range l.length).countP (fun j => (v, j) ∈ edges) = l.countP ImmutableNbr.alive := by
  -- the offsets that are counted are a set of places, whatever the list starts with
  suffices hgen : ∀ (q : ℕ → Bool) (l : List (ImmutableNbr D)),
      (∀ (j : ℕ) n, q j → l[j]? = some n → n.alive) →
      (l.mapIdx fun j n => if q j then n.erase else n).countP ImmutableNbr.alive +
        (range l.length).countP q = l.countP ImmutableNbr.alive by
    simpa [eraseOffsets] using hgen (fun j => (v, j) ∈ edges) l (by simpa using h)
  intro q l h
  induction l generalizing q with
  | nil => rfl
  | cons n l ih =>
    have hrest := ih (fun j => q (j + 1)) fun j n' hq hn => h (j + 1) n' hq hn
    have hfirst := h 0 n
    rw [mapIdx_cons, countP_cons, length_cons, range_succ_eq_map,
      countP_cons, countP_map, countP_cons]
    simp only [Function.comp_def, Nat.succ_eq_add_one]
    by_cases hq : q 0
    · have hn : n.alive := hfirst hq rfl
      simp only [hq, hn, if_true, ImmutableNbr.alive_erase, Bool.false_eq_true, if_false]
      omega
    · simp only [hq, Bool.false_eq_true, if_false]
      omega

section

variable (h : c.Laid lists)
include h

/-- `batch_delete_edges` by offsets, all of which name entries that are there. -/
theorem Laid.batchDeleteOffsets {edges : List (ℕ × ℕ)}
    (hedges : ∀ e ∈ edges, ∀ n, (c.list e.1)[e.2]? = some n → n.alive) :
    ∃ c', c.batchDeleteOffsets edges = some c' ∧ c'.Laid (lists.mapIdx (eraseOffsets edges)) ∧
      c'.surplus = c.surplus := by
  obtain ⟨buf, hrun, hlaid, hsurplus⟩ := h.rewriteLists (length_eraseOffsets edges)
    fun v l hl => countP_eraseOffsets fun j n hj hn => hedges (v, j) hj n (by
      simpa [h.list_eq, hl] using hn)
  refine ⟨_, ?_, hlaid, hsurplus⟩
  rw [ImmutableCsr.batchDeleteOffsets, hrun, map_some,
    h.map_range fun v l => (range l.length).countP fun j => (v, j) ∈ edges]

theorem Laid.found (src offset : ℕ) :
    (((c.place src offset).bind fun p => (c.nbrs[p]?).map fun n => (p, n)) = none) ∨
    ∃ l n p, lists[src]? = some l ∧ l[offset]? = some n ∧
      ((c.place src offset).bind fun p => (c.nbrs[p]?).map fun n => (p, n)) = some (p, n) ∧
      ∀ x, c.nbrs.set p x = (lists.modify src (·.set offset x)).flatten := by
  cases hl : lists[src]? with
  | none =>
    refine .inl ?_
    have hdeg : c.degrees.getD src 0 = 0 := by simp [h.degrees, hl]
    rw [place, if_pos (by omega)]
    rfl
  | some l =>
    have hdeg : c.degrees.getD src 0 = l.length := by simp [h.degrees, hl]
    by_cases hoff : l.length ≤ offset
    · refine .inl ?_
      rw [place, hdeg, if_pos hoff]
      rfl
    · push Not at hoff
      have hsrc := (List.getElem?_eq_some_iff.mp hl).1
      obtain ⟨s, hs⟩ : ∃ s, c.starts[src]? = some s :=
        ⟨_, getElem?_eq_getElem (h.starts.length_eq ▸ hsrc)⟩
      cases s with
      | none =>
        rw [h.starts.eq_nil hl hs] at hoff
        simp at hoff
      | some s =>
        refine .inr ⟨l, l[offset], s + offset, rfl, getElem?_eq_getElem hoff, ?_, ?_⟩
        · have hslice : slice ([] ++ lists.flatten) s l.length = some l :=
            h.starts.slice_eq length_nil hl hs
          have hread : c.nbrs[s + offset]? = some l[offset] := by
            have hget := congrArg (·[offset]?) (slice_eq_some.mp hslice).2
            simp only [nil_append, getElem?_take_of_lt hoff, getElem?_drop] at hget
            rw [h.nbrs, hget, getElem?_eq_getElem hoff]
          rw [place, if_neg (by omega), hs, join_some, map_some, bind_some, hread, map_some]
        · intro x
          have hwrite : ([] ++ lists.flatten).set (s + offset) x =
              [] ++ (lists.modify src (·.set offset x)).flatten :=
            h.starts.set_eq length_nil hl hs hoff x
          rw [h.nbrs]
          exact hwrite

theorem Laid.set {l : List (ImmutableNbr D)} {n : ImmutableNbr D} {src offset p : ℕ}
    (hl : lists[src]? = some l) (hn : l[offset]? = some n)
    (hset : ∀ x, c.nbrs.set p x = (lists.modify src (·.set offset x)).flatten)
    (x : ImmutableNbr D) {edgeNum : ℤ}
    (hnum : edgeNum + (if n.alive then 1 else 0) = c.edgeNum + if x.alive then 1 else 0) :
    ({ c with nbrs := c.nbrs.set p x, edgeNum := edgeNum } : ImmutableCsr D).Laid
        (lists.modify src (·.set offset x)) ∧
      ({ c with nbrs := c.nbrs.set p x, edgeNum := edgeNum } : ImmutableCsr D).surplus =
        c.surplus := by
  have hlen : (lists.modify src (·.set offset x)).map length = lists.map length :=
    ext_getElem? fun v => by
      by_cases hv : src = v
      · subst hv
        simp [hl]
      · simp [hv]
  rw [hset]
  have hlaid := h.rewrite hlen edgeNum
  refine ⟨hlaid, ?_⟩
  have hcount := countP_flatten_modify (f := (·.set offset x)) (p := ImmutableNbr.alive) hl
  obtain ⟨hoff, rfl⟩ := List.getElem?_eq_some_iff.mp hn
  rw [countP_set hoff] at hcount
  rw [surplus, surplus, hlaid.liveNum_eq, h.liveNum_eq]
  by_cases ha : l[offset].alive
  · have hpos : 0 < l.countP ImmutableNbr.alive := countP_pos_iff.mpr ⟨_, getElem_mem hoff, ha⟩
    simp only
    split_ifs at hnum hcount <;> omega
  · rw [if_neg ha] at hnum hcount
    simp only
    split_ifs at hnum hcount <;> omega

theorem Laid.deleteEdge {src offset : ℕ} (hrun : c.deleteEdge src offset = .ok c') :
    ∃ lists', c'.Laid lists' ∧ c'.surplus = c.surplus := by
  unfold ImmutableCsr.deleteEdge at hrun
  rcases h.found src offset with hnone | ⟨l, n, p, hl, hn, hfound, hset⟩
  · rw [hnone] at hrun
    cases hrun
  · rw [hfound] at hrun
    by_cases ha : n.alive
    · simp only [ha] at hrun
      cases hrun
      exact ⟨_, h.set hl hn hset n.erase (by simp [ha])⟩
    · simp only [ha] at hrun
      cases hrun
      exact ⟨lists, h, rfl⟩

theorem Laid.revertDeleteEdge {src nbr offset : ℕ} (hnbr : nbr ≠ invalidVid)
    (hrun : c.revertDeleteEdge src nbr offset = .ok c') :
    ∃ lists', c'.Laid lists' ∧ c'.surplus = c.surplus := by
  unfold ImmutableCsr.revertDeleteEdge at hrun
  rcases h.found src offset with hnone | ⟨l, n, p, hl, hn, hfound, hset⟩
  · rw [hnone] at hrun
    cases hrun
  · rw [hfound] at hrun
    by_cases ha : n.alive
    · simp only [ha] at hrun
      cases hrun
    · simp only [ha] at hrun
      cases hrun
      have hback : ({ n with neighbor := nbr }).alive := by
        simpa [ImmutableNbr.alive] using hnbr
      exact ⟨_, h.set hl hn hset _ (by simp [ha, hback])⟩

theorem Laid.batchPutEdges {rows : List (ℕ × ImmutableNbr D)}
    (hrows : ∀ row ∈ rows, row.2.alive) (hrun : c.batchPutEdges rows = some c') :
    c'.Laid (withRows lists rows) ∧ c'.surplus = c.surplus := by
  unfold ImmutableCsr.batchPutEdges at hrun
  split_ifs at hrun with hany
  have hsrc : ∀ row ∈ rows, row.1 < lists.length := fun row hrow => by
    rw [← h.size_eq]
    simp only [List.any_eq_true, decide_eq_true_eq, not_exists, not_and, not_le] at hany
    exact hany row hrow
  have hdegrees : (c.degrees.mapIdx fun v deg => deg + rows.countP fun row => row.1 = v) =
      (withRows lists rows).map length := by
    apply ext_getElem?
    intro v
    rw [h.degrees, getElem?_mapIdx, getElem?_map, getElem?_map, getElem?_withRows]
    cases lists[v]? <;> simp [countP_eq_length_filter]
  have hsum : ((withRows lists rows).map length).sum = c.nbrs.length + rows.length := by
    have hall := countP_flatten_withRows (p := fun _ => true) hsrc
    simpa [h.nbrs] using hall
  have hrooms : ∀ (i : ℕ) l r, lists[i]? = some l →
      ((withRows lists rows).map length)[i]? = some r →
      l.length + rows.countP (fun row => row.1 = i) ≤ r := by
    intro i l r hl hr
    rw [getElem?_map, getElem?_withRows, hl, map_some, map_some,
      some.injEq, length_append, length_map, ← countP_eq_length_filter] at hr
    exact hr.le
  have hroom : ∀ p ∈ lists.zip ((withRows lists rows).map length), p.1.length ≤ p.2 := by
    intro p hp
    obtain ⟨i, hi⟩ := mem_iff_getElem?.mp hp
    obtain ⟨hl, hr⟩ := getElem?_zip_eq_some.mp hi
    exact (Nat.le_add_right _ _).trans (hrooms i p.1 p.2 hl hr)
  have hbuf : (c.nbrs ++ rows.map Prod.snd).take (lists.map length).sum = lists.flatten := by
    rw [h.nbrs, take_left' length_flatten]
  have hend : ((withRows lists rows).map length).sum ≤
      (c.nbrs ++ rows.map Prod.snd).length := by rw [hsum]; simp
  obtain ⟨buf, hspread, hlen, -, hslices⟩ := spread_spec (by simp) hroom hbuf hend
  obtain ⟨buf', hplace, hlen', hrowsIn⟩ := placeRows_spec (hlen ▸ hend) (by simp) hsrc hrooms
    hslices
  have hfilled : buf'.drop 0 = (withRows lists rows).flatten := by
    refine eq_flatten_of_slices ?_ hrowsIn
    rw [hlen', hlen, hsum]
    simp
  have holdEnd : (lists.map length).sum = c.nbrs.length := by
    rw [h.nbrs, length_flatten]
  simp only [hdegrees] at hrun
  rw [← hsum, ← holdEnd, h.degrees, hspread, bind_some, hplace, map_some, some.injEq] at hrun
  have hlaid : c'.Laid (withRows lists rows) := by
    subst hrun
    exact ⟨hfilled, rfl, pointers_segmentStarts 0 _⟩
  refine ⟨hlaid, ?_⟩
  have hcount := countP_flatten_withRows (p := ImmutableNbr.alive) hsrc
  have hall : rows.countP (fun row => row.2.alive) = rows.length :=
    countP_eq_length.mpr fun row hrow => hrows row hrow
  have hnum : c'.edgeNum = c.edgeNum + rows.length := by rw [← hrun]
  rw [surplus, surplus, hlaid.liveNum_eq, h.liveNum_eq]
  omega

end

end ImmutableCsr

end Neug.Storage
