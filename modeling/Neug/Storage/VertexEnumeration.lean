import Neug.Storage.ValidityMap

/-! The three ways to go through the valid vertices: `foreach_vertex`, the iterator of
`VertexSet` and the count of `ValidVertexNum`, compared with `IsVertexValid`. -/
namespace Neug.Storage
open Neug.Lib List Option

namespace VertexTimestamp

/-- A loop over entries of the array: the indices whose timestamps pass the test. No result
stands for an access outside the array. -/
def scan (x : VertexTimestamp) (p : ℕ → Bool) : List ℕ → Option (List ℕ)
  | [] => some []
  | i :: rest => do
    let old ← x.inserted[i]?
    let l ← x.scan p rest
    pure (if p old then i :: l else l)

/-- The first loop of `foreach_vertex`, which runs to `init_vertex_num_` whatever the limit. -/
def initialVertices (x : VertexTimestamp) : List ℕ :=
  match x.removed with
  | some s => (List.range x.initVertexNum).filter (· ∉ s)
  | none => List.range x.initVertexNum

/-- `foreach_vertex`: the vertices it calls the function on. -/
def foreachVertex (x : VertexTimestamp) (vnum ts : ℕ) : Option (List ℕ) :=
  if min vnum x.maxVertexNum ≤ x.initVertexNum then some x.initialVertices
  else (x.scan (fun old => old ≠ deletedTimestamp && old ≤ ts)
    (List.range (min vnum x.maxVertexNum - x.initVertexNum))).map fun l =>
      x.initialVertices ++ l.map (· + x.initVertexNum)

/-- The loop of `ValidVertexNum` over the removed set. No result stands for a count that the
assertion finds at zero. -/
def discount (limit : ℕ) : ℕ → List ℕ → Option ℕ
  | n, [] => some n
  | n, v :: rest =>
    if v < limit then if n = 0 then none else discount limit (n - 1) rest
    else discount limit n rest

def validVertexNum (x : VertexTimestamp) (ts limit : ℕ) : Option ℕ :=
  (discount (min limit x.maxVertexNum) (min x.initVertexNum (min limit x.maxVertexNum))
    (x.removedSet.sort (· ≤ ·))).bind fun valid =>
  if min limit x.maxVertexNum ≤ x.initVertexNum then some valid
  else (x.scan (fun old => old ≤ ts)
    (List.range (min limit x.maxVertexNum - x.initVertexNum))).map fun l => valid + l.length

/-- The loop that moves a `VertexSet` iterator on to a valid vertex; `n` vertices are left
before the limit. -/
def skipInvalid (x : VertexTimestamp) (ts : ℕ) : ℕ → ℕ → Option ℕ
  | 0, v => some v
  | n + 1, v =>
    match x.isVertexValid v ts with
    | none => none
    | some true => some v
    | some false => x.skipInvalid ts n (v + 1)

/-- A loop from an iterator at `v` to the end, with a bound on the number of its rounds. -/
def visitFrom (x : VertexTimestamp) (ts limit : ℕ) : ℕ → ℕ → Option (List ℕ)
  | 0, _ => none
  | n + 1, v =>
    if v = limit then some []
    else do
      let next ← x.skipInvalid ts (limit - (v + 1)) (v + 1)
      let l ← x.visitFrom ts limit n next
      pure (v :: l)

/-- The vertices between `begin()` and `end()` of a `VertexSet` of `size` vertices. No result
stands for the assertion on the size, too. -/
def vertexSet (x : VertexTimestamp) (size ts : ℕ) : Option (List ℕ) :=
  if x.maxVertexNum < size then none
  else (x.skipInvalid ts size 0).bind (x.visitFrom ts size (size + 1))

/-- The vertices below `vnum` that `IsVertexValid` accepts. -/
def validBelow (x : VertexTimestamp) (vnum ts : ℕ) : List ℕ :=
  (List.range vnum).filter fun v => x.isVertexValid v ts == some true

/-- The three enumerations agree with `IsVertexValid`, and a query about `v` stays in bounds. -/
structure Enumerates (x : VertexTimestamp) (vnum ts v : ℕ) : Prop where
  foreach : ∃ l, x.foreachVertex vnum ts = some l ∧ l.Perm (x.validBelow vnum ts)
  iterator : ∃ l, x.vertexSet vnum ts = some l ∧ l.Perm (x.validBelow vnum ts)
  count : x.validVertexNum ts vnum = some (x.validBelow vnum ts).length
  bounds : x.isVertexValid v ts ≠ none

variable {x : VertexTimestamp} {vnum ts u v n : ℕ}

def stored (x : VertexTimestamp) (u : ℕ) : ℕ :=
  x.inserted.getD (u - x.initVertexNum) deletedTimestamp

theorem scan_eq (p : ℕ → Bool) {l : List ℕ} (h : ∀ i ∈ l, i < x.inserted.length) :
    x.scan p l = some (l.filter fun i => p (x.inserted.getD i deletedTimestamp)) := by
  induction l with
  | nil => rfl
  | cons i rest ih =>
    have hi : i < x.inserted.length := h i mem_cons_self
    have hrest := ih fun j hj => h j (mem_cons_of_mem i hj)
    simp only [scan, getElem?_eq_getElem hi, hrest, filter_cons,
      getD_eq_getElem?_getD]
    rfl

theorem mem_initialVertices : u ∈ x.initialVertices ↔ u < x.initVertexNum ∧ u ∉ x.removedSet := by
  unfold initialVertices removedSet
  cases x.removed <;> simp

theorem nodup_initialVertices (x : VertexTimestamp) : x.initialVertices.Nodup := by
  unfold initialVertices
  cases x.removed with
  | none => exact nodup_range
  | some s => exact nodup_range.filter _

theorem isVertexValid_initial (h : u < x.initVertexNum) :
    x.isVertexValid u ts = some (decide (u ∉ x.removedSet)) := by
  have hmax : ¬ x.maxVertexNum < u := by have := x.size; omega
  unfold isVertexValid removedSet
  rw [if_neg hmax, if_neg (by omega)]
  cases x.removed <;> simp

theorem isVertexValid_stored (h : x.initVertexNum ≤ u) (hu : u < x.maxVertexNum) :
    x.isVertexValid u ts = some (decide (x.stored u ≤ ts)) := by
  have hlen : u - x.initVertexNum < x.inserted.length := by have := x.size; omega
  unfold isVertexValid stored
  rw [if_neg (by omega), if_pos h, getElem?_eq_getElem hlen, getD_eq_getElem _ _ hlen]
  rfl

theorem isVertexValid_eq_none_iff : x.isVertexValid v ts = none ↔ v = x.maxVertexNum := by
  have hsize := x.size
  constructor
  · intro h
    by_contra hv
    rcases lt_or_ge v x.initVertexNum with hlt | hge
    · simp [isVertexValid_initial hlt] at h
    · rcases lt_or_ge v x.maxVertexNum with hmax | hmax
      · simp [isVertexValid_stored hge hmax] at h
      · simp [isVertexValid, show x.maxVertexNum < v by omega] at h
  · intro h
    subst h
    unfold isVertexValid
    rw [if_neg (lt_irrefl _), if_pos (by omega), getElem?_eq_none (by omega)]
    rfl

theorem mem_validBelow (h : vnum ≤ x.maxVertexNum) : u ∈ x.validBelow vnum ts ↔
    u < vnum ∧ (u < x.initVertexNum → u ∉ x.removedSet) ∧
      (x.initVertexNum ≤ u → x.stored u ≤ ts) := by
  simp only [validBelow, mem_filter, mem_range, and_congr_right_iff]
  intro hu
  rcases lt_or_ge u x.initVertexNum with hlt | hge
  · simp [isVertexValid_initial hlt, hlt]
  · simp [isVertexValid_stored hge (hu.trans_le h), hge]

theorem foreachVertex_spec (h : vnum ≤ x.maxVertexNum) (ts : ℕ) :
    ∃ l, x.foreachVertex vnum ts = some l ∧ l.Nodup ∧ ∀ u, u ∈ l ↔
      (u < x.initVertexNum ∧ u ∉ x.removedSet) ∨ (x.initVertexNum ≤ u ∧ u < vnum ∧
        x.stored u ≠ deletedTimestamp ∧ x.stored u ≤ ts) := by
  unfold foreachVertex
  split_ifs with hinit
  · refine ⟨_, rfl, x.nodup_initialVertices, fun u => ?_⟩
    rw [mem_initialVertices]
    exact ⟨.inl, fun hu => hu.resolve_right fun hr => by omega⟩
  · have hsize := x.size
    rw [scan_eq _ fun i hi => by have := mem_range.mp hi; omega]
    refine ⟨_, rfl, ?_, fun u => ?_⟩
    · apply List.Nodup.append x.nodup_initialVertices
      · exact (nodup_range.filter _).map (add_left_injective _)
      · intro u hu hu'
        obtain ⟨i, -, rfl⟩ := mem_map.mp hu'
        have := (mem_initialVertices.mp hu).1
        omega
    · rw [mem_append, mem_initialVertices]
      apply or_congr_right
      simp only [List.mem_map, mem_filter, mem_range, Bool.and_eq_true, decide_eq_true_eq, stored]
      constructor
      · rintro ⟨i, ⟨hi, hne, hle⟩, rfl⟩
        rw [Nat.add_sub_cancel]
        exact ⟨by omega, by omega, hne, hle⟩
      · rintro ⟨hge, hlt, hne, hle⟩
        exact ⟨u - x.initVertexNum, ⟨by omega, hne, hle⟩, by omega⟩

theorem isRemoved_initial (h : u < x.initVertexNum) : x.isRemoved u = true ↔ u ∈ x.removedSet := by
  have := x.size
  simp [isRemoved, show ¬ x.maxVertexNum ≤ u by omega, show ¬ x.initVertexNum ≤ u by omega]

theorem isRemoved_stored (h : x.initVertexNum ≤ u) (hu : u < x.maxVertexNum) :
    x.isRemoved u = true ↔ x.stored u = deletedTimestamp := by
  have hlen : u - x.initVertexNum < x.inserted.length := by have := x.size; omega
  simp [isRemoved, stored, show ¬ x.maxVertexNum ≤ u by omega, h, getElem?_eq_getElem hlen]

/-- `foreach_vertex` visits the valid vertices unless it runs over the limit, or the reader's
timestamp is the one that marks deleted entries. -/
theorem foreach_iff (h : vnum ≤ x.maxVertexNum) :
    (∃ l, x.foreachVertex vnum ts = some l ∧ l.Perm (x.validBelow vnum ts)) ↔
      (∀ u, vnum ≤ u → u < x.initVertexNum → x.isRemoved u = true) ∧
      (deletedTimestamp ≤ ts → ∀ u, x.initVertexNum ≤ u → u < vnum → x.isRemoved u = false) := by
  obtain ⟨l, hl, hnodup, hmem⟩ := foreachVertex_spec h ts
  have hvalid : (x.validBelow vnum ts).Nodup := nodup_range.filter _
  simp only [hl, some.injEq, exists_eq_left', perm_ext_iff_of_nodup hnodup hvalid, hmem,
    mem_validBelow h]
  constructor
  · intro heq
    refine ⟨fun u hge hlt => ?_, fun hts u hge hlt => ?_⟩
    · rw [isRemoved_initial hlt]
      by_contra hu
      have := ((heq u).mp (.inl ⟨hlt, hu⟩)).1
      omega
    · rw [Bool.eq_false_iff, ne_eq, isRemoved_stored hge (hlt.trans_le h)]
      intro hdel
      have hvalid := (heq u).mpr ⟨hlt, fun hu => by omega, fun _ => hdel.trans_le hts⟩
      rcases hvalid with hu | hu
      · omega
      · exact hu.2.2.1 hdel
  · rintro ⟨hinit, hdel⟩ u
    constructor
    · rintro (⟨hlt, hu⟩ | ⟨hge, hlt, -, hle⟩)
      · refine ⟨?_, fun _ => hu, fun hge => by omega⟩
        by_contra hv
        exact hu ((isRemoved_initial hlt).mp (hinit u (by omega) hlt))
      · exact ⟨hlt, fun hu => by omega, fun _ => hle⟩
    · rintro ⟨hlt, hini, hins⟩
      rcases lt_or_ge u x.initVertexNum with hu | hu
      · exact .inl ⟨hu, hini hu⟩
      · refine .inr ⟨hu, hlt, fun hd => ?_, hins hu⟩
        have hr := hdel (hd ▸ hins hu) u hu hlt
        rw [(isRemoved_stored hu (hlt.trans_le h)).mpr hd] at hr
        exact Bool.noConfusion hr

theorem skipInvalid_spec (h : v + n ≤ x.maxVertexNum) (ts : ℕ) :
    ∃ w, x.skipInvalid ts n v = some w ∧ v ≤ w ∧ w ≤ v + n ∧
      (w < v + n → x.isVertexValid w ts = some true) ∧
      ∀ u, v ≤ u → u < w → x.isVertexValid u ts = some false := by
  induction n generalizing v with
  | zero => exact ⟨v, rfl, le_rfl, le_rfl, fun hlt => by omega, fun u hv hu => by omega⟩
  | succ n ih =>
    have hdef : x.isVertexValid v ts ≠ none := by
      rw [ne_eq, isVertexValid_eq_none_iff]
      omega
    rcases hvalid : x.isVertexValid v ts with _ | valid
    · exact absurd hvalid hdef
    · cases valid with
      | true =>
        refine ⟨v, by simp only [skipInvalid, hvalid], le_rfl, by omega, fun _ => hvalid, ?_⟩
        omega
      | false =>
        obtain ⟨w, hw, hge, hle, hstop, hskip⟩ := ih (v := v + 1) (by omega)
        refine ⟨w, by simp only [skipInvalid, hvalid, hw], by omega, by omega,
          fun hlt => hstop (by omega), fun u hv hu => ?_⟩
        rcases eq_or_lt_of_le hv with rfl | hlt
        · exact hvalid
        · exact hskip u hlt hu

/-- A run of the iterator from a place where it may stand: the valid vertices from there on. -/
theorem visitFrom_eq (h : vnum ≤ x.maxVertexNum) (hv : v ≤ vnum) (hn : vnum - v < n)
    (hstop : v < vnum → x.isVertexValid v ts = some true) : x.visitFrom ts vnum n v =
      some ((range' v (vnum - v)).filter fun u => x.isVertexValid u ts == some true) := by
  induction n generalizing v with
  | zero => omega
  | succ n ih =>
    by_cases hend : v = vnum
    · subst hend
      simp [visitFrom]
    · have hlt : v < vnum := by omega
      obtain ⟨w, hw, hge, hle, hnext, hskip⟩ :=
        skipInvalid_spec (x := x) (v := v + 1) (n := vnum - (v + 1)) (by omega) ts
      have hrest := ih (by omega) (by omega) fun hwlt => hnext (by omega)
      simp only [visitFrom, hend, hw, hrest, bind_eq_bind, bind_some]
      -- the vertices jumped over are not valid, so they may be put back
      have hsplit : range' v (vnum - v) =
          v :: (range' (v + 1) (w - (v + 1)) ++ range' w (vnum - w)) := by
        rw [show vnum - v = (w - (v + 1) + (vnum - w)) + 1 by omega, range'_succ,
          ← range'_append_1, show v + 1 + (w - (v + 1)) = w by omega]
      have hnone : (range' (v + 1) (w - (v + 1))).filter
          (fun u => x.isVertexValid u ts == some true) = [] := by
        apply filter_eq_nil_iff.mpr
        intro u hu
        have hmem := mem_range'_1.mp hu
        simp [hskip u hmem.1 (by omega)]
      rw [hsplit, filter_cons, filter_append, hnone]
      simp [hstop hlt]

theorem vertexSet_eq (h : vnum ≤ x.maxVertexNum) :
    x.vertexSet vnum ts = some (x.validBelow vnum ts) := by
  obtain ⟨w, hw, -, hle, hstop, hskip⟩ :=
    skipInvalid_spec (x := x) (v := 0) (n := vnum) (by omega) ts
  have hrun := visitFrom_eq h (n := vnum + 1) (by omega) (by omega)
    fun hlt => hstop (by omega)
  have hnone : (range' 0 w).filter (fun u => x.isVertexValid u ts == some true) = [] := by
    apply filter_eq_nil_iff.mpr
    intro u hu
    simp [hskip u (Nat.zero_le u) (by simpa using (mem_range'_1.mp hu).2)]
  have hsplit : range vnum = range' 0 w ++ range' w (vnum - w) := by
    rw [range_eq_range', show vnum = w + (vnum - w) by omega, ← range'_append_1]
    simp
  unfold vertexSet validBelow
  rw [if_neg (by omega), hw, bind_some, hrun, hsplit, filter_append, hnone, nil_append]

theorem discount_eq (limit n : ℕ) (l : List ℕ) : discount limit n l =
      if l.countP (· < limit) ≤ n then some (n - l.countP (· < limit)) else none := by
  induction l generalizing n with
  | nil => simp [discount]
  | cons v rest ih =>
    by_cases hv : v < limit
    · simp only [discount, hv, decide_true, countP_cons_of_pos]
      by_cases hn : n = 0
      · simp [hn]
      · rw [ih]
        split_ifs <;> first | omega | rfl | (congr 1; omega)
    · simp only [discount, hv, decide_false, Bool.false_eq_true,
        not_false_eq_true, countP_cons_of_neg]
      exact ih n

theorem countP_sort (s : Finset ℕ) (p : ℕ → Prop) [DecidablePred p] :
    (s.sort (· ≤ ·)).countP (fun v => decide (p v)) = (s.filter p).card := by
  have hsort : ((s.sort (· ≤ ·)) : Multiset ℕ) = s.val := Finset.sort_eq s (· ≤ ·)
  rw [Finset.card_def, Finset.filter_val, ← Multiset.countP_eq_card_filter, ← hsort,
    Multiset.coe_countP]

theorem length_validBelow (h : vnum ≤ x.maxVertexNum) (ts : ℕ) :
    (x.validBelow vnum ts).length + (x.removedSet.filter (· < min x.initVertexNum vnum)).card =
      min x.initVertexNum vnum + ((range (vnum - x.initVertexNum)).filter fun i =>
        decide (x.inserted.getD i deletedTimestamp ≤ ts)).length := by
  set m := min x.initVertexNum vnum with hm
  have hsplit : range vnum = range m ++ (range (vnum - x.initVertexNum)).map (m + ·) := by
    rw [← range_add]
    congr 1
    omega
  have hfirst : (range m).filter (fun v => x.isVertexValid v ts == some true) =
      (range m).filter fun v => decide (v ∉ x.removedSet) := by
    apply filter_congr
    intro v hv
    have hlt : v < x.initVertexNum := by have := mem_range.mp hv; omega
    simp [isVertexValid_initial hlt]
  have hsecond : ((range (vnum - x.initVertexNum)).map (m + ·)).filter
      (fun v => x.isVertexValid v ts == some true) =
      ((range (vnum - x.initVertexNum)).filter fun i =>
        decide (x.inserted.getD i deletedTimestamp ≤ ts)).map (m + ·) := by
    rw [List.filter_map]
    congr 1
    apply filter_congr
    intro i hi
    have hlt := mem_range.mp hi
    have hmi : m = x.initVertexNum := by omega
    simp only [Function.comp_apply]
    rw [hmi, isVertexValid_stored (by omega) (by omega), stored]
    simp
  -- a vertex below `m` is removed or not
  have hcount : ((range m).filter fun v => decide (v ∉ x.removedSet)).length +
      (x.removedSet.filter (· < m)).card = m := by
    have hsum := (range m).length_eq_countP_add_countP fun v => decide (v ∉ x.removedSet)
    rw [length_range] at hsum
    rw [← countP_eq_length_filter]
    have hremoved : (range m).countP (fun v => ¬ decide (v ∉ x.removedSet)) =
        (x.removedSet.filter (· < m)).card := by
      have hset : x.removedSet.filter (· < m) =
          (Finset.range m).filter fun v => v ∈ x.removedSet := by
        ext v
        simp [and_comm]
      rw [hset, Finset.card_def, Finset.filter_val, ← Multiset.countP_eq_card_filter,
        Finset.range_val, Multiset.range]
      simp
    omega
  rw [validBelow, hsplit, filter_append, hfirst, hsecond, length_append, length_map]
  omega

theorem count_iff (h : vnum ≤ x.maxVertexNum) :
    x.validVertexNum ts vnum = some (x.validBelow vnum ts).length ↔
      ∀ u ∈ x.removedSet, u < vnum → u < x.initVertexNum := by
  have hlen := length_validBelow h ts
  set inserted := ((range (vnum - x.initVertexNum)).filter fun i =>
    decide (x.inserted.getD i deletedTimestamp ≤ ts)).length with hins
  set below := (x.removedSet.filter (· < min x.initVertexNum vnum)).card with hbelow
  have hsub : x.removedSet.filter (· < min x.initVertexNum vnum) ⊆ x.removedSet.filter (· < vnum) :=
    Finset.monotone_filter_right _ fun u _ hu => lt_of_lt_of_le hu (min_le_right _ _)
  have hval : x.validVertexNum ts vnum =
      if (x.removedSet.filter (· < vnum)).card ≤ min x.initVertexNum vnum then
        some (min x.initVertexNum vnum - (x.removedSet.filter (· < vnum)).card + inserted)
      else none := by
    unfold validVertexNum
    rw [min_eq_left h, discount_eq, countP_sort]
    split_ifs with hcard hinit hinit
    · have hzero : inserted = 0 := by simp [hins, Nat.sub_eq_zero_of_le hinit]
      rw [bind_some, hzero, add_zero]
    · have hsize := x.size
      rw [scan_eq _ fun i hi => by have := mem_range.mp hi; omega]
      rfl
    all_goals rfl
  have hbound : below ≤ min x.initVertexNum vnum := by
    have hrange : x.removedSet.filter (· < min x.initVertexNum vnum) ⊆
        Finset.range (min x.initVertexNum vnum) := by
      intro u hu
      exact mem_range.mpr (Finset.mem_filter.mp hu).2
    exact (Finset.card_le_card hrange).trans_eq (Finset.card_range _)
  rw [hval]
  constructor
  · intro heq u hu hlt
    split_ifs at heq with hcard
    have hsame : (x.removedSet.filter (· < vnum)).card ≤ below := by
      have := some.inj heq
      omega
    have hfilter := Finset.eq_of_subset_of_card_le hsub hsame
    have hmem : u ∈ x.removedSet.filter (· < min x.initVertexNum vnum) := by
      rw [hfilter]
      exact Finset.mem_filter.mpr ⟨hu, hlt⟩
    exact lt_of_lt_of_le (Finset.mem_filter.mp hmem).2 (min_le_left _ _)
  · intro hall
    have hfilter : x.removedSet.filter (· < vnum) =
        x.removedSet.filter (· < min x.initVertexNum vnum) := by
      apply Finset.filter_congr
      intro u hu
      exact ⟨fun hlt => lt_min (hall u hu hlt) hlt, fun hlt => (lt_min_iff.mp hlt).2⟩
    rw [hfilter, if_pos hbound]
    congr 1
    omega

/-- The enumerations agree with `IsVertexValid` exactly if `foreach_vertex` does not run over
the limit, no removed vertex below the limit has an entry of its own, a reader at the deletion
mark meets no deleted entry, and the query is not about the capacity itself. -/
theorem enumerates_iff (x : VertexTimestamp) (vnum ts v : ℕ) (h : vnum ≤ x.maxVertexNum) :
    x.Enumerates vnum ts v ↔
      (∀ u, vnum ≤ u → u < x.initVertexNum → x.isRemoved u = true) ∧
      (∀ u ∈ x.removedSet, u < vnum → u < x.initVertexNum) ∧
      (deletedTimestamp ≤ ts → ∀ u, x.initVertexNum ≤ u → u < vnum → x.isRemoved u = false) ∧
      v ≠ x.maxVertexNum := by
  constructor
  · intro hall
    obtain ⟨hlimit, hdel⟩ := (foreach_iff h).mp hall.foreach
    exact ⟨hlimit, (count_iff h).mp hall.count, hdel,
      fun hv => hall.bounds (isVertexValid_eq_none_iff.mpr hv)⟩
  · rintro ⟨hlimit, hentry, hdel, hv⟩
    exact ⟨(foreach_iff h).mpr ⟨hlimit, hdel⟩, ⟨_, vertexSet_eq h, .refl _⟩,
      (count_iff h).mpr hentry, fun hnone => hv (isVertexValid_eq_none_iff.mp hnone)⟩

/-- A table of two loaded vertices and two free places is enumerated at every timestamp. -/
theorem enumerates_loaded : (empty.init 2 4).Enumerates 3 7 2 := by
  apply (enumerates_iff _ 3 7 2 (by decide)).mpr
  refine ⟨fun u hge hlt => ?_, by decide, fun hts => absurd hts (by decide), by decide⟩
  have hinit : (empty.init 2 4).initVertexNum = 2 := rfl
  omega

/-- Two vertices are stored and loaded again, the second one is removed and inserted anew. It
now has an entry of its own but is still in the removed set: both are valid, one is counted. -/
theorem revived_vertex_not_counted :
    (execute VertexTimestamp.apply [.init 0 4, .insert 0 1, .insert 1 1, .dumpOpen, .remove 1,
      .insert 1 5] empty).map (fun x => (x.validBelow 2 5, x.validVertexNum 5 2)) =
        some ([0, 1], some 1) := by
  decide +kernel

end VertexTimestamp

end Neug.Storage
