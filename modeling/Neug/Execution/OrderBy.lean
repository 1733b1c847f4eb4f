import Neug.Execution.Context
import Neug.Lib.PriorityQueue

/-! `OrderBy::order_by_with_limit` and `Limit::limit`: which rows of a context they return, and in
which order. The sorting algorithm and the priority queue are any that meet their specification. -/
namespace Neug.Execution
open Neug.Lib List Option

variable {α : Type}

/-- `std::sort`. -/
structure Sorter (β : Type) (r : β → β → Prop) where
  run : List β → List β
  perm : ∀ l, (run l).Perm l
  ascending : ∀ l, Ascending r (run l)

def Sorter.insertion {β : Type} (r : β → β → Prop) [DecidableRel r] [IsStrictWeakOrder β r] :
    Sorter β r where
  run l := l.insertionSort fun a b => ¬ r b a
  perm := List.perm_insertionSort _
  ascending := ascending_insertionSort

abbrev byRow (ctx : Context α) (cmp : Row α → Row α → Bool) (i j : ℕ) : Prop :=
  cmp (ctx.row i) (ctx.row j) = true

section

variable (ctx : Context α) (cmp : Row α → Row α → Bool) (sorter : Sorter ℕ (byRow ctx cmp))
  (pq : PriorityQueue ℕ (byRow ctx cmp))

/-- `OrderBy::order_by_limit_impl`. Popping from an empty queue is undefined. -/
def orderByLimitImpl (low high : ℕ) : Option (List ℕ) :=
  if low = 0 ∧ ctx.rowNum ≤ high then
    some (sorter.run (List.range ctx.rowNum))
  else
    (pq.popMany low ((List.range ctx.rowNum).foldl (pq.offer high) pq.empty)).map fun queue =>
      pq.drain (pq.size queue) queue []

def orderByWithLimit (low high : ℕ) : Option (Context α) :=
  (orderByLimitImpl ctx cmp sorter pq low high).bind ctx.reshuffle

/-- `SIZE_MAX + 1`. -/
def sizeRange : ℕ := 2 ^ 64
def maxSize : ℕ := 2 ^ 60 - 1

/-- `Limit::limit`. The length of the vector wraps around, and one beyond `max_size` throws. -/
def limit (lower upper : ℕ) : Option (Context α) :=
  if lower = 0 ∧ ctx.rowNum ≤ upper then
    some ctx
  else
    let upper := if ctx.rowNum < upper then ctx.rowNum else upper
    let length := (upper + sizeRange - lower) % sizeRange
    if maxSize < length then
      none
    else
      ctx.reshuffle ((List.range' lower (upper - lower)).foldl
        (fun offsets i => offsets.set (i - lower) i) (List.replicate length 0))

/-- The rows from sorted position `low` on, before position `high`. -/
def OrderBySlice (low high : ℕ) : Prop :=
  ∃ ctx', orderByWithLimit ctx cmp sorter pq low high = some ctx' ∧
    ∃ sorted, sorted.Perm ctx.rows ∧ Ascending (fun x y => cmp x y = true) sorted ∧
      ctx'.rows = (sorted.take (min high ctx.rowNum)).drop low

/-- The rows from position `low` on, before position `high`. -/
def LimitSlice (low high : ℕ) : Prop :=
  ∃ ctx', limit ctx low high = some ctx' ∧
    ctx'.rows = (ctx.rows.take (min high ctx.rowNum)).drop low

def leastRows : ℕ := ctx.rows.countP (least (fun x y => cmp x y = true) ctx.rows)

end

variable {ctx : Context α} {cmp : Row α → Row α → Bool} {sorter : Sorter ℕ (byRow ctx cmp)}
  {pq : PriorityQueue ℕ (byRow ctx cmp)} {low high : ℕ}

instance [h : IsStrictWeakOrder (Row α) fun x y => cmp x y = true] :
    IsStrictWeakOrder ℕ (byRow ctx cmp) where
  irrefl i := h.irrefl (ctx.row i)
  trans i j k := h.trans (ctx.row i) (ctx.row j) (ctx.row k)
  incomp_trans i j k := h.incomp_trans (ctx.row i) (ctx.row j) (ctx.row k)

/-- What is returned is the front of the sorted rows, as many as were asked for. -/
theorem orderByLimitImpl_eq [IsStrictWeakOrder (Row α) fun x y => cmp x y = true]
    (sorter : Sorter ℕ (byRow ctx cmp)) (pq : PriorityQueue ℕ (byRow ctx cmp)) (hlow : low ≤ min high ctx.rowNum) :
    ∃ s, s.Perm (range ctx.rowNum) ∧ Ascending (byRow ctx cmp) s ∧
      orderByLimitImpl ctx cmp sorter pq low high = some (s.take (min high ctx.rowNum - low)) := by
  by_cases hall : low = 0 ∧ ctx.rowNum ≤ high
  · refine ⟨sorter.run (range ctx.rowNum), sorter.perm _, sorter.ascending _, ?_⟩
    have hlen := (sorter.perm (range ctx.rowNum)).length_eq
    rw [length_range] at hlen
    rw [orderByLimitImpl, if_pos hall, take_of_length_le (by omega)]
  · have hrange : low ≤ min high (range ctx.rowNum).length := by
      rw [length_range]
      exact hlow
    obtain ⟨queue, s, hmany, hperm, hasc, hdrain⟩ :=
      pq.exists_ascending_drain (range ctx.rowNum) hrange
    rw [length_range] at hdrain
    refine ⟨s, hperm, hasc, ?_⟩
    rw [orderByLimitImpl, if_neg hall, hmany, map_some, hdrain]

/-- Skipping more rows than there are empties the queue and pops once more. -/
theorem orderByLimitImpl_eq_none [IsStrictWeakOrder (Row α) fun x y => cmp x y = true]
    (hlow : ctx.rowNum < low) : orderByLimitImpl ctx cmp sorter pq low high = none := by
  obtain ⟨dropped, hkeeps⟩ := (PriorityQueue.keeps_empty pq high).foldl_offer (range ctx.rowNum)
  have hsize := hkeeps.size_eq
  rw [append_nil, length_reverse, length_range] at hsize
  have hmany : pq.popMany low ((range ctx.rowNum).foldl (pq.offer high) pq.empty) = none := by
    apply PriorityQueue.popMany_eq_none_iff.mpr
    omega
  rw [orderByLimitImpl, if_neg (by omega), hmany]
  rfl

theorem exists_reshuffle_take (hctx : ctx.Aligned) {s : List ℕ}
    (hperm : s.Perm (range ctx.rowNum)) (k : ℕ) :
    ∃ ctx', ctx.reshuffle (s.take k) = some ctx' ∧ ctx'.rows = (s.map ctx.row).take k := by
  have hoffsets : ∀ i ∈ s.take k, i < ctx.rowNum := by
    intro i hi
    exact mem_range.mp (hperm.subset (mem_of_mem_take hi))
  refine ⟨_, (hctx.covers hoffsets).reshuffle_eq, ?_⟩
  rw [Context.rows_gather_of_lt hctx hoffsets, map_take]

theorem orderBySlice_iff [IsStrictWeakOrder (Row α) fun x y => cmp x y = true]
    (hctx : ctx.Aligned) (hle : low ≤ high) : OrderBySlice ctx cmp sorter pq low high ↔
      low = 0 ∨ low ≤ ctx.rowNum ∧
        (low = min high ctx.rowNum ∨ min high ctx.rowNum ≤ leastRows ctx cmp) := by
  by_cases hlow : low ≤ ctx.rowNum
  · have hmin : low ≤ min high ctx.rowNum := by omega
    obtain ⟨s, hperm, hasc, himpl⟩ := orderByLimitImpl_eq sorter pq hmin
    obtain ⟨ctx', hctx', hrows⟩ := exists_reshuffle_take hctx hperm (min high ctx.rowNum - low)
    have hresult : orderByWithLimit ctx cmp sorter pq low high = some ctx' := by
      rw [orderByWithLimit, himpl, bind_some, hctx']
    have hsorted : Ascending (fun x y => cmp x y = true) (s.map ctx.row) :=
      Ascending.map hasc
    have hmap : (s.map ctx.row).Perm ctx.rows := hperm.map ctx.row
    have hlen : (s.map ctx.row).length = ctx.rowNum := by
      rw [hmap.length_eq, Context.length_rows]
    have hslice : OrderBySlice ctx cmp sorter pq low high ↔
        ∃ l', l'.Perm (s.map ctx.row) ∧ Ascending (fun x y => cmp x y = true) l' ∧
          (s.map ctx.row).take (min high ctx.rowNum - low) =
            (l'.take (min high ctx.rowNum)).drop low := by
      constructor
      · rintro ⟨ctx'', hctx'', l', hl', hasc', hrows'⟩
        obtain rfl := some.inj (hresult.symm.trans hctx'')
        exact ⟨l', hl'.trans hmap.symm, hasc', hrows.symm.trans hrows'⟩
      · rintro ⟨l', hl', hasc', heq⟩
        exact ⟨ctx', hresult, l', hl'.trans hmap, hasc', hrows.trans heq⟩
    rw [hslice]
    rcases eq_zero_or_pos low with rfl | hpos
    · exact iff_of_true ⟨_, .refl _, hsorted, by simp⟩ (.inl rfl)
    · have hcount : (s.map ctx.row).countP (least (fun x y => cmp x y = true) (s.map ctx.row)) =
          leastRows ctx cmp := by
        rw [hmap.countP_eq]
        apply countP_congr
        intro x _
        rw [least_iff, least_iff]
        exact ⟨fun h y hy => h y (hmap.symm.subset hy), fun h y hy => h y (hmap.subset hy)⟩
      rw [hsorted.shifted_slice_iff hpos hmin (by omega)]
      omega
  · have hnone : orderByWithLimit ctx cmp sorter pq low high = none := by
      rw [orderByWithLimit, orderByLimitImpl_eq_none (by omega)]
      rfl
    apply iff_of_false
    · rintro ⟨ctx', hctx', -⟩
      rw [hnone] at hctx'
      cases hctx'
    · omega

theorem foldl_set_eq_range' (lower done k : ℕ) :
    (range' (lower + done) k).foldl (fun offsets i => offsets.set (i - lower) i)
      (range' lower done ++ replicate k 0) = range' lower (done + k) := by
  induction k generalizing done with
  | zero => simp
  | succ k ih =>
    have hset : (range' lower done ++ replicate (k + 1) 0).set
        (lower + done - lower) (lower + done) =
        range' lower (done + 1) ++ replicate k 0 := by
      rw [Nat.add_sub_cancel_left, set_append_right _ _ (by simp), length_range',
        Nat.sub_self, range'_concat,
        append_assoc, one_mul]
      rfl
    rw [range'_succ, foldl_cons, hset, add_assoc, ih (done + 1), add_assoc, add_comm 1 k]

theorem drop_take_rows {low m : ℕ} (hm : m ≤ ctx.rowNum) :
    (range' low (m - low)).map ctx.row = (ctx.rows.take m).drop low := by
  rw [Context.rows, ← map_take, ← map_drop, take_range, min_eq_left hm,
    range_eq_range', drop_range', zero_add, mul_one]

theorem limit_rows (hctx : ctx.Aligned) (hn : ctx.rowNum ≤ maxSize) (hle : low ≤ high)
    (hlow : low ≤ ctx.rowNum) : LimitSlice ctx low high := by
  by_cases hall : low = 0 ∧ ctx.rowNum ≤ high
  · obtain ⟨rfl, hhigh⟩ := hall
    refine ⟨ctx, by simp [limit, hhigh], ?_⟩
    rw [drop_zero, take_of_length_le (by simp [hhigh])]
  · have hupper : (if ctx.rowNum < high then ctx.rowNum else high) = min high ctx.rowNum := by
      split <;> omega
    have hlength : (min high ctx.rowNum + sizeRange - low) % sizeRange =
        min high ctx.rowNum - low := by
      unfold sizeRange
      unfold maxSize at hn
      omega
    have hloop := foldl_set_eq_range' low 0 (min high ctx.rowNum - low)
    simp only [range'_zero, nil_append, add_zero, zero_add] at hloop
    have hoffsets : ∀ i ∈ range' low (min high ctx.rowNum - low), i < ctx.rowNum := by
      intro i hi
      have hrange := mem_range'_1.mp hi
      omega
    refine ⟨ctx.gather (range' low (min high ctx.rowNum - low)), ?_, ?_⟩
    · simp only [limit, if_neg hall, hupper, hlength, hloop]
      rw [if_neg (by omega), (hctx.covers hoffsets).reshuffle_eq]
    · rw [Context.rows_gather_of_lt hctx hoffsets, drop_take_rows (min_le_right _ _)]

theorem limit_beyond (hlow : ctx.rowNum < low) (hle : low ≤ high) (hhigh : high < sizeRange) :
    limit ctx low high = if maxSize < sizeRange - (low - ctx.rowNum) then none
      else ctx.reshuffle (replicate (sizeRange - (low - ctx.rowNum)) 0) := by
  have hlength : (ctx.rowNum + sizeRange - low) % sizeRange = sizeRange - (low - ctx.rowNum) := by
    unfold sizeRange at hhigh ⊢
    omega
  have hupper : (if ctx.rowNum < high then ctx.rowNum else high) = ctx.rowNum := if_pos (by omega)
  have hnotAll : ¬ (low = 0 ∧ ctx.rowNum ≤ high) := by omega
  simp only [limit, if_neg hnotAll, hupper, hlength, Nat.sub_eq_zero_of_le hlow.le]
  rfl

theorem limitSlice_iff (hctx : ctx.Aligned) (hn : ctx.rowNum ≤ maxSize) (hle : low ≤ high)
    (hhigh : high < sizeRange) : LimitSlice ctx low high ↔
      low ≤ ctx.rowNum ∨ (¬ ∃ c, some c ∈ ctx.slots) ∧ sizeRange - low ≤ maxSize := by
  by_cases hlow : low ≤ ctx.rowNum
  · exact iff_of_true (limit_rows hctx hn hle hlow) (.inl hlow)
  · rw [not_le] at hlow
    have hlimit := limit_beyond hlow hle hhigh
    have hempty : (ctx.rows.take (min high ctx.rowNum)).drop low = [] := by
      apply drop_of_length_le
      rw [length_take]
      omega
    by_cases hsome : ∃ c, some c ∈ ctx.slots
    · apply iff_of_false _ (by rintro (h | ⟨h, -⟩); exacts [by omega, h hsome])
      rintro ⟨ctx', hctx', hrows⟩
      rw [hlimit] at hctx'
      split at hctx'
      · cases hctx'
      · by_cases hcovers : ctx.Covers (replicate (sizeRange - (low - ctx.rowNum)) 0)
        · rw [hcovers.reshuffle_eq] at hctx'
          cases hctx'
          rw [Context.rows_gather hcovers hsome, hempty, map_replicate,
            replicate_eq_nil_iff] at hrows
          omega
        · rw [Context.reshuffle_eq_none hcovers] at hctx'
          cases hctx'
    · have hzero : ctx.rowNum = 0 := by
        by_contra hne
        exact hsome (Context.exists_column (pos_of_ne_zero hne))
      have hcovers : ctx.Covers (replicate (sizeRange - (low - ctx.rowNum)) 0) :=
        fun c hc => absurd ⟨c, hc⟩ hsome
      rw [hcovers.reshuffle_eq] at hlimit
      constructor
      · rintro ⟨ctx', hctx', -⟩
        refine .inr ⟨hsome, ?_⟩
        by_contra hbig
        rw [hlimit, if_pos (by omega)] at hctx'
        cases hctx'
      · rintro (h | ⟨-, hfits⟩)
        · omega
        · rw [if_neg (by omega)] at hlimit
          exact ⟨_, hlimit, by rw [Context.rows_gather_blank _ hsome, hempty]⟩

/-- Both operators return the slice unless rows are skipped: sorting then returns as many rows, but
from the front, so that only ties save it, and skipping beyond the end is not handled by either. -/
theorem order_by_and_limit_slice_iff [IsStrictWeakOrder (Row α) fun x y => cmp x y = true]
    (sorter : Sorter ℕ (byRow ctx cmp)) (pq : PriorityQueue ℕ (byRow ctx cmp))
    (hctx : ctx.Aligned) (hn : ctx.rowNum ≤ maxSize) (low high : ℕ) (hle : low ≤ high)
    (hhigh : high < sizeRange) :
    (OrderBySlice ctx cmp sorter pq low high ↔
      low = 0 ∨ low ≤ ctx.rowNum ∧
        (low = min high ctx.rowNum ∨ min high ctx.rowNum ≤ leastRows ctx cmp)) ∧
    (LimitSlice ctx low high ↔
      low ≤ ctx.rowNum ∨ (¬ ∃ c, some c ∈ ctx.slots) ∧ sizeRange - low ≤ maxSize) :=
  ⟨orderBySlice_iff hctx hle, limitSlice_iff hctx hn hle hhigh⟩

def persons : Context ℕ where
  columns := [some ⟨.value, [30, 10, 20]⟩]
  head := none

/-- `ORDER BY` the first column. -/
def byAge (x y : Row ℕ) : Bool := decide ((x.headD none).getD 0 < (y.headD none).getD 0)

instance : IsStrictWeakOrder (Row ℕ) fun x y => byAge x y = true where
  irrefl x := by simp [byAge]
  trans x y z := by
    simp only [byAge, decide_eq_true_eq]
    omega
  incomp_trans x y z := by
    simp only [byAge, decide_eq_true_eq]
    omega

theorem order_by_and_limit_slice_persons : persons.Aligned ∧
      OrderBySlice persons byAge (Sorter.insertion _) (PriorityQueue.sortedList _) 0 2 ∧
      LimitSlice persons 0 2 := by
  have haligned : persons.Aligned := by decide
  have hboth := order_by_and_limit_slice_iff (Sorter.insertion (byRow persons byAge))
    (PriorityQueue.sortedList (byRow persons byAge)) haligned (by decide) 0 2 (by decide)
    (by decide)
  exact ⟨haligned, hboth.1.mpr (.inl rfl), hboth.2.mpr (.inl (by decide))⟩

/-- `SKIP 1 LIMIT 1` returns the youngest person instead of the second youngest, and a `LIMIT` that
skips four of the three persons throws. -/
theorem skip_returns_first_row :
    persons.rows = [[some 30, none], [some 10, none], [some 20, none]] ∧
      (orderByWithLimit persons byAge (Sorter.insertion _) (PriorityQueue.sortedList _) 1 2).map
        Context.rows = some [[some 10, none]] ∧
      ¬ OrderBySlice persons byAge (Sorter.insertion _) (PriorityQueue.sortedList _) 1 2 ∧
      limit persons 4 5 = none ∧ ¬ LimitSlice persons 4 5 := by
  have haligned : persons.Aligned := by decide
  refine ⟨by decide, by decide, ?_, by decide, ?_⟩
  · rw [orderBySlice_iff haligned (by decide)]
    decide
  · rw [limitSlice_iff haligned (by decide) (by decide) (by decide)]
    rintro (hfew | ⟨hblank, -⟩)
    · exact absurd hfew (by decide)
    · exact hblank ⟨_, mem_append_left _ (mem_singleton_self _)⟩

end Neug.Execution
