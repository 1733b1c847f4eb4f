import Neug.Execution.GroupBy

/-! The reducers of `GROUP BY` and the columns that `GroupBy::group_by` returns. -/
namespace Neug.Execution
open Neug.Lib

/-- `EXPR`, the operand of a reducer: its rows, and the operations of its C++ type. -/
structure ReduceExpr (V : Type) where
  eval : ℕ → V
  hasValue : ℕ → Bool
  isOptional : Bool
  zero : V
  add : V → V → V
  lt : V → V → Bool
  same : V → V → Bool
  zeroDouble : V
  addDouble : V → V → V
  divDouble : V → ℕ → V

variable {V : Type}

namespace ReduceExpr

variable (e : ReduceExpr V)

/-- The values a reducer takes from a group: of an optional operand, those of the non-null rows. -/
def values (group : List ℕ) : List V :=
  (if e.isOptional then group.filter e.hasValue else group).map e.eval

def isNull (group : List ℕ) : Bool := e.isOptional && (e.values group).isEmpty

/-- The elements of a `flat_hash_set` after the insertions. -/
def hashSet (vs : List V) : List V :=
  vs.foldl (fun set v => if set.any (e.same v) then set else set ++ [v]) []

/-- The elements of a `std::set` after the insertions, in its order. -/
def orderedSet (vs : List V) : List V :=
  vs.foldl (fun set v => if set.any fun u => !e.lt u v && !e.lt v u then set
    else set.takeWhile (e.lt · v) ++ v :: set.dropWhile (e.lt · v)) []

end ReduceExpr

/-- One row of a reducer's column. -/
inductive Cell (V : Type) where
  | null
  | count (n : ℕ)
  | value (v : V)
  | list (vs : List V)

inductive Reducer (V : Type) where
  | countStar
  | count (e : ReduceExpr V)
  | countDistinct (e : ReduceExpr V)
  | sum (e : ReduceExpr V)
  | min (e : ReduceExpr V)
  | max (e : ReduceExpr V)
  | first (e : ReduceExpr V)
  | toSet (e : ReduceExpr V)
  | toList (e : ReduceExpr V)
  | avg (e : ReduceExpr V)

namespace Reducer

/-- The column of a counting reducer, which has a row also if there are no groups. -/
def countColumn (count : List ℕ → ℕ) : List (List ℕ) → List (Cell V)
  | [] => [.count 0]
  | groups => groups.map fun group => .count (count group)

/-- The value kept from a group by a loop that starts with the first of its values. -/
def keepOne (f : V → V → V) : List V → Cell V
  | [] => .null
  | v :: vs => .value (vs.foldl f v)

/-- `ReducerBase::reduce`. -/
def reduce (groups : List (List ℕ)) : Reducer V → List (Cell V)
  | countStar => countColumn List.length groups
  | count e => countColumn (fun group => (e.values group).length) groups
  | countDistinct e => countColumn (fun group => (e.hashSet (e.values group)).length) groups
  | sum e => groups.map fun group =>
    if e.isNull group then .null else .value ((e.values group).foldl e.add e.zero)
  | min e => groups.map fun group =>
    keepOne (fun a b => if e.lt b a then b else a) (e.values group)
  | max e => groups.map fun group =>
    keepOne (fun a b => if e.lt a b then b else a) (e.values group)
  | first e => groups.map fun group => keepOne (fun a _ => a) (e.values group)
  | toSet e => groups.map fun group => .list (e.orderedSet (e.values group))
  | toList e => groups.map fun group => .list (e.values group)
  | avg e => groups.map fun group =>
    if e.isNull group then .null
    else .value (e.divDouble ((e.values group).foldl e.addDouble e.zeroDouble)
      (e.values group).length)

def isCount : Reducer V → Bool
  | countStar | count _ | countDistinct _ => true
  | _ => false

theorem length_reduce (r : Reducer V) (groups : List (List ℕ)) :
    (r.reduce groups).length = if groups = [] ∧ r.isCount then 1 else groups.length := by
  cases r <;> cases groups <;> simp [reduce, isCount, countColumn]

end Reducer

inductive GroupColumn (V : Type) where
  | key (elems : List Value)
  | reduced (cells : List (Cell V))

def GroupColumn.size : GroupColumn V → ℕ
  | key elems => elems.length
  | reduced cells => cells.length

/-- `GroupBy::group_by` on a context of `n` rows: the columns of the keys, one row per group, and
the columns of the reducers. -/
def groupBy (n : ℕ) (keys : List KeyColumn) (aggrs : List (Reducer V)) : List (GroupColumn V) :=
  let (offsets, groups) := createKeyFunc keys n
  keys.map (fun c => .key (offsets.map c.getElem)) ++ aggrs.map fun r => .reduced (r.reduce groups)

/-- The rows an aggregation has: one for every group, and one if nothing is grouped by. -/
def resultRows (n : ℕ) (keys : List KeyColumn) : ℕ :=
  if keys = [] then 1 else (createKeyFunc keys n).2.length

theorem exists_key (keys : List KeyColumn) : ∃ (κ : Type) (_ : DecidableEq κ) (key : ℕ → κ),
    ∀ n, createKeyFunc keys n = .ofKey key n := by
  match keys with
  | [] => exact ⟨_, inferInstance, _, fun n => rfl⟩
  | [.vertex c] => exact ⟨_, inferInstance, c.store.getVertex, fun n => rfl⟩
  | [.int64 c] => exact ⟨_, inferInstance, c.getValue, fun n => rfl⟩
  | [.int32 c] => exact ⟨_, inferInstance, c.getValue, fun n => rfl⟩
  | [.plain c] => exact ⟨_, inferInstance, _, fun n => rfl⟩
  | c :: c' :: cs => exact ⟨_, inferInstance, _, fun n => rfl⟩

theorem createKeyFunc_zero (keys : List KeyColumn) : createKeyFunc keys 0 = ([], []) := by
  obtain ⟨κ, _, key, hkey⟩ := exists_key keys
  rw [hkey]
  rfl

theorem length_offsets (keys : List KeyColumn) (n : ℕ) :
    (createKeyFunc keys n).1.length = (createKeyFunc keys n).2.length := by
  obtain ⟨κ, _, key, hkey⟩ := exists_key keys
  simp [hkey, Groups.ofKey, groupLoop_eq]

theorem groups_ne_nil {n : ℕ} (hn : 0 < n) (keys : List KeyColumn) :
    (createKeyFunc keys n).2 ≠ [] := by
  obtain ⟨κ, _, key, hkey⟩ := exists_key keys
  obtain ⟨o, ho, -⟩ : ∃ o ∈ firsts key n, key o = key 0 := exists_first hn
  have hfirsts : firsts key n ≠ [] := List.ne_nil_of_mem ho
  simpa [hkey, Groups.ofKey, groupLoop_eq] using hfirsts

theorem length_groups_of_no_keys {n : ℕ} (hn : 0 < n) : (createKeyFunc [] n).2.length = 1 := by
  obtain ⟨m, rfl⟩ := Nat.exists_eq_succ_of_ne_zero hn.ne'
  change (groupLoop (fun _ => encodeRow []) (m + 1)).groups.length = 1
  simp [groupLoop_eq, firsts_const]

theorem resultRows_eq {n : ℕ} (hn : 0 < n) (keys : List KeyColumn) :
    resultRows n keys = (createKeyFunc keys n).2.length := by
  by_cases h : keys = []
  · rw [resultRows, if_pos h, h, length_groups_of_no_keys hn]
  · rw [resultRows, if_neg h]

theorem forall_groupBy {n : ℕ} {keys : List KeyColumn} {aggrs : List (Reducer V)} {k : ℕ} :
    (∀ c ∈ groupBy n keys aggrs, c.size = k) ↔ (keys ≠ [] → (createKeyFunc keys n).2.length = k) ∧
        ∀ r ∈ aggrs, (r.reduce (createKeyFunc keys n).2).length = k := by
  have hkeys : (∀ c ∈ keys, (createKeyFunc keys n).1.length = k) ↔
      (keys ≠ [] → (createKeyFunc keys n).2.length = k) := by
    rw [← length_offsets]
    constructor
    · intro h hne
      obtain ⟨c, hc⟩ := List.exists_mem_of_ne_nil keys hne
      exact h c hc
    · intro h c hc
      exact h (List.ne_nil_of_mem hc)
  rw [← hkeys]
  simp [groupBy, GroupColumn.size, or_imp, forall_and]

theorem groupBy_rectangular_iff (n : ℕ) (keys : List KeyColumn) (aggrs : List (Reducer V)) :
    (∀ c ∈ groupBy n keys aggrs, c.size = resultRows n keys) ↔
      0 < n ∨ ∀ r ∈ aggrs, r.isCount = keys.isEmpty := by
  rw [forall_groupBy]
  rcases n.eq_zero_or_pos with rfl | hn
  · -- A counting reducer has one row and every other column none.
    by_cases hkeys : keys = []
    · simp [hkeys, createKeyFunc_zero, Reducer.length_reduce, resultRows]
    · have hempty : keys.isEmpty = false := by simpa using hkeys
      simp [hkeys, hempty, createKeyFunc_zero, Reducer.length_reduce, resultRows]
  · have hne := groups_ne_nil hn keys
    simp [hn, resultRows_eq hn, Reducer.length_reduce, hne]

/-- An operand without rows. -/
def noRows : ReduceExpr ℤ where
  eval _ := 0
  hasValue _ := false
  isOptional := false
  zero := 0
  add := (· + ·)
  lt a b := a < b
  same a b := a = b
  zeroDouble := 0
  addDouble := (· + ·)
  divDouble a n := a / n

/-- `RETURN count(*), sum(x)` and `RETURN x, count(*)` of no rows. -/
theorem groupBy_no_rows : (groupBy 0 [] [.countStar, .sum noRows]).map GroupColumn.size = [1, 0] ∧
    (groupBy (V := ℤ) 0 [.int64 ⟨[], [], false, by simp⟩] [.countStar]).map GroupColumn.size =
      [0, 1] := by
  decide

end Neug.Execution
