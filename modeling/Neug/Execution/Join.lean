import Neug.Execution.Columns
import Neug.Execution.RowEncoding
import Neug.Lib.HashJoin

/-! `Join::join`: two contexts are brought together row by row, by the values under key tags. -/
namespace Neug.Execution
open Neug.Lib List Option

/-- How a class of columns implements `optional_shuffle`: vertex, edge, value and path columns put
null where there is no row, list and arrow columns inherit the default that aborts, and a struct
column asks its children and reads its validity bits, which a shuffled column may not have. -/
inductive PaddingKind where
  | pads
  | aborts
  | struct (hasValids : Bool) (children : List PaddingKind)

/-- `optional_shuffle` goes through. It reads the validity bit of every row that it takes over. -/
def PaddingKind.succeeds (takesRow : Bool) : PaddingKind → Bool
  | pads => true
  | aborts => false
  | struct hasValids children => (hasValids || !takesRow) && all children
where
  all : List PaddingKind → Bool
    | [] => true
    | k :: ks => k.succeeds takesRow && all ks

/-- `IContextColumn`: a column of vertices, or another one with what `get_elem` returns. -/
inductive JoinColumn where
  | vertices (records : List VertexRecord)
  | values (kind : PaddingKind) (elems : List Value)

def VertexRecord.elem (v : VertexRecord) : Value := if v.IsNull then .null else .vertex v

def Value.isNull : Value → Bool
  | .null => true
  | _ => false

namespace JoinColumn

def size : JoinColumn → ℕ
  | vertices records => records.length
  | values _ elems => elems.length

/-- `column_type() == ContextColumnType::kVertex`. -/
def isVertex : JoinColumn → Bool
  | vertices _ => true
  | values _ _ => false

def elem : JoinColumn → ℕ → Value
  | vertices records, i => (records[i]?.map VertexRecord.elem).getD .null
  | values _ elems, i => elems.getD i .null

/-- `get_vertex`, for columns that are cast to `IVertexColumn`. -/
def record : JoinColumn → ℕ → Option VertexRecord
  | vertices records, i => records[i]?
  | values _ _, _ => none

/-- What `get_elem` returns after `shuffle`. -/
def shuffle (c : JoinColumn) (offsets : List ℕ) : List Value := offsets.map c.elem

def canPad (takesRow : Bool) : JoinColumn → Bool
  | vertices _ => true
  | values kind _ => kind.succeeds takesRow

/-- What `get_elem` returns after `optional_shuffle`. -/
def optionalShuffle (c : JoinColumn) (offsets : List (Option ℕ)) : Option (List Value) :=
  if c.canPad (offsets.any Option.isSome) then some (offsets.map fun o => o.elim .null c.elem)
  else none

end JoinColumn

section

variable {α : Type}

/-- `Context::get` for an alias, `none` also behind the last column. -/
def getSlot (slots : List (Option α)) (tag : ℕ) : Option α := slots[tag]?.join

/-- `Context::set` for an alias. -/
def setSlot (slots : List (Option α)) (tag : ℕ) (col : Option α) : Option (List (Option α)) :=
  if (getSlot slots tag).isSome then none
  else some ((slots ++ List.replicate (tag + 1 - slots.length) none).set tag col)

/-- A loop over columns of `src` that sets those it accepts, given what stands in the slot. -/
def mergeFirst (accept : Option α → Option α → Bool) (ret src : List (Option α)) (k : ℕ) :
    Option (List (Option α)) :=
  (List.range k).foldlM (fun ret i =>
    if accept (getSlot ret i) (getSlot src i) then setSlot ret i (getSlot src i) else some ret) ret

def mergeSlots (accept : Option α → Option α → Bool) (ret src : List (Option α)) :
    Option (List (Option α)) :=
  mergeFirst accept ret src src.length

theorem getSlot_setSlot {slots : List (Option α)} {tag : ℕ} (h : getSlot slots tag = none)
    (col : Option α) : ∃ out, setSlot slots tag col = some out ∧
      ∀ a, getSlot out a = if a = tag then col else getSlot slots a := by
  refine ⟨_, if_neg (by simp [h]), ?_⟩
  intro a
  unfold getSlot
  rw [getElem?_set]
  by_cases ha : a = tag
  · subst ha
    rw [if_pos rfl, if_pos rfl, if_pos (by simp; omega)]
    rfl
  · rw [if_neg (Ne.symm ha), if_neg ha]
    by_cases hlt : a < slots.length
    · rw [getElem?_append_left hlt]
    · rw [getElem?_append_right (not_lt.mp hlt), getElem?_eq_none (not_lt.mp hlt)]
      rw [getElem?_replicate]
      split_ifs <;> rfl

variable {accept : Option α → Option α → Bool} {ret src : List (Option α)}

theorem mergeFirst_succ (k : ℕ) : mergeFirst accept ret src (k + 1) =
    (mergeFirst accept ret src k).bind fun ret =>
      if accept (getSlot ret k) (getSlot src k) then setSlot ret k (getSlot src k)
      else some ret := by
  unfold mergeFirst
  rw [range_succ]
  simp

theorem mergeFirst_of_free {k : ℕ}
    (h : ∀ a < k, accept (getSlot ret a) (getSlot src a) = true → getSlot ret a = none) :
    ∃ out, mergeFirst accept ret src k = some out ∧ ∀ a, getSlot out a =
      if a < k ∧ accept (getSlot ret a) (getSlot src a) = true then getSlot src a
      else getSlot ret a := by
  induction k with
  | zero => exact ⟨ret, rfl, fun a => (if_neg (by simp)).symm⟩
  | succ k ih =>
    obtain ⟨mid, hmid, hslots⟩ := ih fun a ha => h a (by omega)
    have hold : getSlot mid k = getSlot ret k := by rw [hslots k, if_neg (by simp)]
    rw [mergeFirst_succ, hmid, bind_some, hold]
    have hother : ∀ a, a ≠ k → (a < k + 1 ↔ a < k) := by
      omega
    by_cases hacc : accept (getSlot ret k) (getSlot src k) = true
    · obtain ⟨out, hout, hset⟩ := getSlot_setSlot (hold.trans (h k (by omega) hacc)) (getSlot src k)
      refine ⟨out, by rw [if_pos hacc, hout], ?_⟩
      intro a
      rw [hset a, hslots a]
      by_cases ha : a = k
      · subst ha
        simp [hacc]
      · simp [ha, hother a ha]
    · refine ⟨mid, by rw [if_neg hacc], ?_⟩
      intro a
      rw [hslots a]
      by_cases ha : a = k
      · subst ha
        simp [hacc]
      · simp [hother a ha]

theorem lt_of_getSlot {slots : List (Option α)} {a : ℕ} (h : getSlot slots a ≠ none) :
    a < slots.length := by
  by_contra hlt
  apply h
  unfold getSlot
  rw [getElem?_eq_none (not_lt.mp hlt)]
  rfl

/-- A loop that sets columns in free slots only, and leaves no column out for which the slot is
free, keeps what is there and adds the rest. -/
theorem mergeSlots_orElse (accept : Option α → Option α → Bool) (ret src : List (Option α))
    (hfree : ∀ a, accept (getSlot ret a) (getSlot src a) = true → getSlot ret a = none)
    (htakes : ∀ a, getSlot ret a = none → getSlot src a ≠ none →
      accept none (getSlot src a) = true) : ∃ out, mergeSlots accept ret src = some out ∧
      ∀ a, getSlot out a = (getSlot ret a).orElse fun _ => getSlot src a := by
  obtain ⟨out, hout, hslots⟩ := mergeFirst_of_free fun a _ hacc => hfree a hacc
  refine ⟨out, hout, fun a => ?_⟩
  rw [hslots a]
  cases hret : getSlot ret a with
  | some c =>
    rw [← hret, if_neg, hret]
    · rfl
    · intro h
      rw [hfree a h.2] at hret
      cases hret
  | none =>
    split_ifs with h
    · rfl
    · by_contra hne
      have hsrc : getSlot src a ≠ none := Ne.symm hne
      exact h ⟨lt_of_getSlot hsrc, htakes a hret hsrc⟩

theorem getSlot_of_setSlot {slots out : List (Option α)} {tag a : ℕ} {col : Option α}
    (h : setSlot slots tag col = some out) (ha : a ≠ tag) : getSlot out a = getSlot slots a := by
  have hfree : getSlot slots tag = none := by
    by_contra hne
    rw [setSlot, if_pos (isSome_iff_ne_none.mpr hne)] at h
    cases h
  obtain ⟨out', hout, hslots⟩ := getSlot_setSlot hfree col
  rw [hout, some.injEq] at h
  rw [← h, hslots a, if_neg ha]

theorem getSlot_mergeFirst {k a : ℕ} (ha : k ≤ a) {out : List (Option α)}
    (h : mergeFirst accept ret src k = some out) : getSlot out a = getSlot ret a := by
  induction k generalizing out with
  | zero => rw [← some.inj h]
  | succ k ih =>
    rw [mergeFirst_succ] at h
    obtain ⟨mid, hmid, hstep⟩ := bind_eq_some_iff.mp h
    rw [← ih (by omega) hmid]
    split_ifs at hstep
    · exact getSlot_of_setSlot hstep (by omega)
    · rw [← some.inj hstep]

theorem mergeSlots_eq_none {a : ℕ} (ha : getSlot src a ≠ none)
    (hacc : accept (getSlot ret a) (getSlot src a) = true) (hret : getSlot ret a ≠ none) :
    mergeSlots accept ret src = none := by
  have hloop : ∀ k, a < k → mergeFirst accept ret src k = none := by
    intro k
    induction k with
    | zero =>
      omega
    | succ k ih =>
      intro h
      rw [mergeFirst_succ]
      cases hmid : mergeFirst accept ret src k with
      | none => rfl
      | some mid =>
        have hk : a = k := by
          by_contra hne
          rw [ih (by omega)] at hmid
          cases hmid
        subst hk
        have hold : getSlot mid a = getSlot ret a := getSlot_mergeFirst le_rfl hmid
        rw [bind_some, hold, if_pos hacc]
        exact if_pos (by rw [hold]; exact isSome_iff_ne_none.mpr hret)
  exact hloop src.length (lt_of_getSlot ha)

end

/-- `Context`, as far as a join looks at it. -/
structure JoinContext where
  columns : List (Option JoinColumn)
  rowNum : ℕ
  aligned : ∀ c, some c ∈ columns → c.size = rowNum

inductive JoinKind where
  | semi | anti | inner | leftOuter | times
  deriving DecidableEq, Repr

/-- The arguments of a join. The tags of `left_columns` and `right_columns` stand in pairs, and both
contexts have columns under them. -/
structure JoinInput where
  left : JoinContext
  right : JoinContext
  keys : List (ℕ × ℕ)
  left_isSome : ∀ t ∈ keys, (getSlot left.columns t.1).isSome = true
  right_isSome : ∀ t ∈ keys, (getSlot right.columns t.2).isSome = true

/-- A joined context: the rows of both sides that its rows are made of, as `left_offset` and
`right_offset` hold them, and what its columns return. -/
structure Joined where
  pairs : List (ℕ × Option ℕ)
  columns : List (Option (List Value))

namespace JoinInput

variable (x : JoinInput)

def leftKey (i : ℕ) : List Value :=
  x.keys.map fun t => ((getSlot x.left.columns t.1).map fun c => c.elem i).getD .null

def rightKey (j : ℕ) : List Value :=
  x.keys.map fun t => ((getSlot x.right.columns t.2).map fun c => c.elem j).getD .null

def leftRecords (i : ℕ) : List (Option VertexRecord) :=
  x.keys.map fun t => (getSlot x.left.columns t.1).bind fun c => c.record i

def rightRecords (j : ℕ) : List (Option VertexRecord) :=
  x.keys.map fun t => (getSlot x.right.columns t.2).bind fun c => c.record j

def leftVertex (t : ℕ × ℕ) : Bool :=
  ((getSlot x.left.columns t.1).map JoinColumn.isVertex).getD false

def rightVertex (t : ℕ × ℕ) : Bool :=
  ((getSlot x.right.columns t.2).map JoinColumn.isVertex).getD false

def leftColumns (pairs : List (ℕ × Option ℕ)) : List (Option (List Value)) :=
  x.left.columns.map (Option.map fun c => c.shuffle (pairs.map Prod.fst))

def rightColumns (pairs : List (ℕ × Option ℕ)) : List (Option (List Value)) :=
  x.right.columns.map (Option.map fun c => c.shuffle (pairs.filterMap Prod.snd))

/-- The right context after some of its columns are removed and `optional_reshuffle`. -/
def optionalColumns (removed : ℕ → Bool) (pairs : List (ℕ × Option ℕ)) :
    Option (List (Option (List Value))) :=
  x.right.columns.zipIdx.mapM fun c =>
    if removed c.2 then some none
    else match c.1 with
      | none => some none
      | some col => (col.optionalShuffle (pairs.map Prod.snd)).map some

def combine (accept : Option (List Value) → Option (List Value) → Bool)
    (pairs : List (ℕ × Option ℕ)) : Option Joined :=
  (mergeSlots (fun _ _ => true) [] (x.leftColumns pairs)).bind fun ret =>
    (mergeSlots accept ret (x.rightColumns pairs)).map fun columns => ⟨pairs, columns⟩

def extend (removed : ℕ → Bool) (accept : Option (List Value) → Option (List Value) → Bool)
    (pairs : List (ℕ × Option ℕ)) : Option Joined :=
  (x.optionalColumns removed pairs).bind fun right =>
    (mergeSlots accept (x.leftColumns pairs) right).map fun columns => ⟨pairs, columns⟩

def keep (offset : List ℕ) : Joined :=
  ⟨offset.map fun i => (i, none), x.leftColumns (offset.map fun i => (i, none))⟩

/-- `default_semi_join`. Left rows with null in the key are skipped in both modes. -/
def defaultSemiJoin (kind : JoinKind) : Option Joined :=
  some (x.keep ((List.range x.left.rowNum).filter fun i =>
    !(x.leftKey i).any Value.isNull &&
      (decide (encodeRowHash (x.leftKey i) ∈ rightSet) == decide (kind = .semi))))
where
  rightSet : List (List UInt8) :=
    (List.range x.right.rowNum).map fun j => encodeRowHash (x.rightKey j)

/-- `dual_vertex_column_semi_join`. Each right row dereferences both casted columns. -/
def dualVertexColumnSemiJoin (kind : JoinKind) (t₀ t₁ : ℕ × ℕ) : Option Joined :=
  if x.right.rowNum = 0 ∨ x.rightVertex t₀ ∧ x.rightVertex t₁ then
    some (x.keep ((List.range x.left.rowNum).filter fun i =>
      decide (x.leftRecords i ∈ (List.range x.right.rowNum).map x.rightRecords) ==
        decide (kind = .semi)))
  else none

def vertexInnerJoin : Option Joined :=
  x.combine (fun l _ => l.isNone)
    (hashPairs x.leftRecords x.rightRecords x.left.rowNum x.right.rowNum)

/-- `single_vertex_column_inner_join`, which asks the casted left column for its size. -/
def singleVertexColumnInnerJoin (t₀ : ℕ × ℕ) : Option Joined :=
  if x.leftVertex t₀ then x.vertexInnerJoin else none

/-- `dual_vertex_column_inner_join`. The second left column is dereferenced for each left row. -/
def dualVertexColumnInnerJoin (t₀ t₁ : ℕ × ℕ) : Option Joined :=
  if x.leftVertex t₀ ∧ (x.left.rowNum = 0 ∨ x.leftVertex t₁) then x.vertexInnerJoin else none

def defaultInnerJoin : Option Joined :=
  x.combine (fun l _ => l.isNone) ((List.range x.left.rowNum).flatMap fun i =>
    if (x.leftKey i).any Value.isNull then []
    else plain i (rightSet (encodeRowHash (x.leftKey i))))
where
  rightSet : List UInt8 → List ℕ :=
    buildMap (fun j => encodeRowHash (x.rightKey j)) (fun j => !(x.rightKey j).any Value.isNull)
      x.right.rowNum

def defaultTimesJoin : Option Joined :=
  x.combine (fun _ r => r.isSome)
    ((List.range x.left.rowNum).flatMap fun i => plain i (List.range x.right.rowNum))

/-- `right_map` of the outer joins by vertices. If the left context is not the smaller one, the rows
are kept as `vid_t`. -/
def vertexRightMap (k : List (Option VertexRecord)) : List ℕ :=
  if x.left.rowNum < x.right.rowNum then
    sharedMap x.leftRecords x.rightRecords x.left.rowNum x.right.rowNum k
  else (buildMap x.rightRecords (fun _ => true) x.right.rowNum k).map (· % 2 ^ 32)

def vertexLeftOuterJoin (removed : ℕ → Bool) : Option Joined :=
  x.extend removed (fun l r => r.isSome && l.isNone)
    ((List.range x.left.rowNum).flatMap fun i => padded i (x.vertexRightMap (x.leftRecords i)))

/-- `single_vertex_column_left_outer_join`. The columns that the left context has are removed before
`optional_reshuffle`. -/
def singleVertexColumnLeftOuterJoin (t₀ : ℕ × ℕ) : Option Joined :=
  if x.leftVertex t₀ then
    x.vertexLeftOuterJoin fun a => a = t₀.2 || (getSlot x.left.columns a).isSome
  else none

def dualVertexColumnLeftOuterJoin (t₀ t₁ : ℕ × ℕ) : Option Joined :=
  if x.leftVertex t₀ ∧ (x.left.rowNum = 0 ∨ x.leftVertex t₁) then
    x.vertexLeftOuterJoin fun a => a = t₀.2 || a = t₁.2
  else none

/-- `default_left_outer_join`. Every right column that is left is set, and null behind the last
column of the left context. -/
def defaultLeftOuterJoin : Option Joined :=
  x.extend (fun a => a ∈ x.keys.map Prod.snd) (fun l r => r.isSome || l.isNone)
    ((List.range x.left.rowNum).flatMap fun i =>
      padded i (rightMap (encodeRowHash (x.leftKey i))))
where
  rightMap (k : List UInt8) : List ℕ :=
    (buildMap (fun j => encodeRowHash (x.rightKey j)) (fun _ => true) x.right.rowNum k).map
      (· % 2 ^ 32)

/-- `Join::join`. Which variant is taken depends on the columns of one side only. -/
def join : JoinKind → Option Joined
  | .inner => match x.keys with
    | [t₀] => if x.rightVertex t₀ then x.singleVertexColumnInnerJoin t₀ else x.defaultInnerJoin
    | [t₀, t₁] =>
      if x.rightVertex t₀ ∧ x.rightVertex t₁ then x.dualVertexColumnInnerJoin t₀ t₁
      else x.defaultInnerJoin
    | _ => x.defaultInnerJoin
  | .leftOuter => match x.keys with
    | [t₀] =>
      if x.rightVertex t₀ then x.singleVertexColumnLeftOuterJoin t₀ else x.defaultLeftOuterJoin
    | [t₀, t₁] =>
      if x.rightVertex t₀ ∧ x.rightVertex t₁ then x.dualVertexColumnLeftOuterJoin t₀ t₁
      else x.defaultLeftOuterJoin
    | _ => x.defaultLeftOuterJoin
  | .times => x.defaultTimesJoin
  | kind => match x.keys with
    | [t₀, t₁] =>
      if x.leftVertex t₀ ∧ x.leftVertex t₁ then x.dualVertexColumnSemiJoin kind t₀ t₁
      else x.defaultSemiJoin kind
    | _ => x.defaultSemiJoin kind

end JoinInput

end Neug.Execution
