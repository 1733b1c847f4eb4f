import Neug.Lib.Renumber

/-! Contexts: the intermediate results of a query, held column by column. -/
namespace Neug.Execution
open Neug.Lib List Option

inductive ContextColumnType where
  | vertex | edge | value | path | arrowArray | arrowStream | none
  deriving DecidableEq, Repr

/-- `IContextColumn`, with what `get_elem` returns for each row. -/
structure Column (α : Type) where
  columnType : ContextColumnType
  elems : List α
  deriving DecidableEq, Repr

/-- `Context`. The columns stand under their aliases; the head may be one of them. -/
structure Context (α : Type) where
  columns : List (Option (Column α))
  head : Option (Column α)
  deriving DecidableEq, Repr

/-- The elements of a row, `none` where no column is set. -/
abbrev Row (α : Type) := List (Option α)

variable {α : Type}

/-- `IContextColumn::shuffle`. There is no element behind the end of the column. -/
def Column.shuffle (c : Column α) (offsets : List ℕ) : Option (Column α) :=
  (offsets.mapM fun i => c.elems[i]?).map fun elems => { c with elems }

namespace Context

variable (ctx : Context α)

def slots : List (Option (Column α)) := ctx.columns ++ [ctx.head]
def rowNum : ℕ := (ctx.slots.findSome? fun c => c.map fun c => c.elems.length).getD 0
def row (i : ℕ) : Row α := ctx.slots.map fun c => c.bind fun c => c.elems[i]?
def rows : List (Row α) := (List.range ctx.rowNum).map ctx.row

def reshuffle (offsets : List ℕ) : Option (Context α) := do
  let columns ← ctx.columns.mapM (shuffleSlot offsets)
  let head ← shuffleSlot offsets ctx.head
  pure { columns, head }
where
  shuffleSlot (offsets : List ℕ) : Option (Column α) → Option (Option (Column α))
    | none => some none
    | some c => (c.shuffle offsets).map some

def Aligned : Prop := ∀ c, some c ∈ ctx.slots → c.elems.length = ctx.rowNum

def Covers (offsets : List ℕ) : Prop :=
  ∀ c, some c ∈ ctx.slots → ∀ i ∈ offsets, i < c.elems.length

instance : Decidable ctx.Aligned :=
  decidable_of_iff (∀ s ∈ ctx.slots, ∀ c ∈ s, c.elems.length = ctx.rowNum)
    ⟨fun h c hc => h _ hc c rfl, fun h s hs c hc => h c (by rw [← Option.mem_def.mp hc]; exact hs)⟩

def gather (offsets : List ℕ) : Context α where
  columns := ctx.columns.map (Option.map fun c => { c with elems := offsets.filterMap (c.elems[·]?) })
  head := ctx.head.map fun c => { c with elems := offsets.filterMap (c.elems[·]?) }

variable {ctx}

@[simp] theorem length_rows : ctx.rows.length = ctx.rowNum := by simp [rows]

theorem slots_gather (offsets : List ℕ) : (ctx.gather offsets).slots =
    ctx.slots.map (Option.map fun c => { c with elems := offsets.filterMap (c.elems[·]?) }) := by
  simp [slots, gather]

theorem exists_column (h : 0 < ctx.rowNum) : ∃ c, some c ∈ ctx.slots := by
  by_contra! hnone
  have hfind : (ctx.slots.findSome? fun c => c.map fun c => c.elems.length) = none := by
    rw [findSome?_eq_none_iff]
    intro s hs
    cases s with
    | none => rfl
    | some c => exact absurd hs (hnone c)
  simp [rowNum, hfind] at h

variable {offsets : List ℕ}

theorem Aligned.covers (hctx : ctx.Aligned)
    (hoffsets : ∀ i ∈ offsets, i < ctx.rowNum) : ctx.Covers offsets := by
  intro c hc i hi
  rw [hctx c hc]
  exact hoffsets i hi

theorem Covers.isSome_getElem? (h : ctx.Covers offsets) {c : Column α}
    (hc : some c ∈ ctx.slots) : ∀ i ∈ offsets, (c.elems[i]?).isSome = true := by
  intro i hi
  rw [getElem?_eq_getElem (h c hc i hi)]
  rfl

theorem Covers.shuffleSlot_eq (h : ctx.Covers offsets)
    {s : Option (Column α)} (hs : s ∈ ctx.slots) : reshuffle.shuffleSlot offsets s =
      some (s.map fun c => { c with elems := offsets.filterMap (c.elems[·]?) }) := by
  cases s with
  | none => rfl
  | some c =>
    have hmap := mapM_eq_some_filterMap (h.isSome_getElem? hs)
    simp [reshuffle.shuffleSlot, Column.shuffle, hmap]

theorem Covers.reshuffle_eq (h : ctx.Covers offsets) :
    ctx.reshuffle offsets = some (ctx.gather offsets) := by
  have hcolumns : ctx.columns.mapM (reshuffle.shuffleSlot offsets) =
      some (ctx.gather offsets).columns := by
    apply mapM_eq_some_map
    intro s hs
    exact h.shuffleSlot_eq (mem_append_left _ hs)
  have hhead : reshuffle.shuffleSlot offsets ctx.head = some (ctx.gather offsets).head :=
    h.shuffleSlot_eq (mem_append_right _ (mem_singleton_self _))
  rw [reshuffle, hcolumns, hhead]
  rfl

theorem reshuffle_eq_none (h : ¬ ctx.Covers offsets) : ctx.reshuffle offsets = none := by
  rw [Covers] at h
  push Not at h
  obtain ⟨c, hc, i, hi, hout⟩ := h
  have hslot : reshuffle.shuffleSlot offsets (some c) = none := by
    have hmap : (offsets.mapM fun i => c.elems[i]?) = none :=
      mapM_eq_none hi (getElem?_eq_none hout)
    simp [reshuffle.shuffleSlot, Column.shuffle, hmap]
  rcases mem_append.mp hc with hcol | hhead
  · rw [reshuffle, mapM_eq_none hcol hslot]
    rfl
  · rw [reshuffle, ← mem_singleton.mp hhead, hslot]
    cases ctx.columns.mapM (reshuffle.shuffleSlot offsets) <;> rfl

theorem rowNum_eq {n : ℕ} (hall : ∀ c, some c ∈ ctx.slots → c.elems.length = n)
    (hsome : ∃ c, some c ∈ ctx.slots) : ctx.rowNum = n := by
  obtain ⟨c, hc⟩ := hsome
  cases hfind : ctx.slots.findSome? fun c => c.map fun c => c.elems.length with
  | none =>
    have hnone := findSome?_eq_none_iff.mp hfind _ hc
    cases hnone
  | some k =>
    obtain ⟨s, hs, hk⟩ := exists_of_findSome?_eq_some hfind
    obtain ⟨d, rfl, rfl⟩ := map_eq_some_iff.mp hk
    rw [rowNum, hfind]
    exact hall d hs

theorem rowNum_gather (h : ctx.Covers offsets)
    (hsome : ∃ c, some c ∈ ctx.slots) : (ctx.gather offsets).rowNum = offsets.length := by
  apply rowNum_eq
  · intro c hc
    rw [slots_gather] at hc
    obtain ⟨s, hs, heq⟩ := mem_map.mp hc
    obtain ⟨d, rfl, rfl⟩ := map_eq_some_iff.mp heq
    rw [length_filterMap_eq_countP, countP_eq_length]
    exact h.isSome_getElem? hs
  · obtain ⟨c, hc⟩ := hsome
    rw [slots_gather]
    exact ⟨_, mem_map.mpr ⟨some c, hc, rfl⟩⟩

theorem row_gather (h : ctx.Covers offsets) {k i : ℕ}
    (hk : offsets[k]? = some i) : (ctx.gather offsets).row k = ctx.row i := by
  rw [row, slots_gather, List.map_map]
  apply map_congr_left
  intro s hs
  cases s with
  | none => rfl
  | some c => simp [getElem?_filterMap (h.isSome_getElem? hs), hk]

theorem rows_gather (h : ctx.Covers offsets)
    (hsome : ∃ c, some c ∈ ctx.slots) : (ctx.gather offsets).rows = offsets.map ctx.row := by
  rw [rows, rowNum_gather h hsome]
  apply ext_getElem (by simp)
  intro k hk hk'
  rw [length_map] at hk'
  simp [row_gather h (getElem?_eq_getElem hk')]

theorem rows_gather_blank (offsets : List ℕ) (hblank : ¬ ∃ c, some c ∈ ctx.slots) :
    (ctx.gather offsets).rows = [] := by
  have hzero : (ctx.gather offsets).rowNum = 0 := by
    by_contra hne
    obtain ⟨c, hc⟩ := exists_column (pos_of_ne_zero hne)
    rw [slots_gather] at hc
    obtain ⟨s, hs, heq⟩ := mem_map.mp hc
    obtain ⟨d, rfl, -⟩ := map_eq_some_iff.mp heq
    exact hblank ⟨d, hs⟩
  rw [rows, hzero]
  rfl

theorem rows_gather_of_lt (hctx : ctx.Aligned) (hoffsets : ∀ i ∈ offsets, i < ctx.rowNum) :
    (ctx.gather offsets).rows = offsets.map ctx.row := by
  by_cases hsome : ∃ c, some c ∈ ctx.slots
  · exact rows_gather (hctx.covers hoffsets) hsome
  · have hnil : offsets = [] := by
      apply eq_nil_iff_forall_not_mem.mpr
      intro i hi
      exact hsome (exists_column (Nat.zero_lt_of_lt (hoffsets i hi)))
    rw [rows_gather_blank offsets hsome, hnil]
    rfl

end Context

end Neug.Execution
