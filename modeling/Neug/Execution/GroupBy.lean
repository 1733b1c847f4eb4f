import Neug.Execution.Columns
import Neug.Execution.RowEncoding

/-! The keys of `GROUP BY`: typed keys for one column, encoded rows for the rest. -/
namespace Neug.Execution
open Neug.Lib Option List

/-- A column of which the keys only read `get_elem`. -/
structure PlainColumn where
  type : DataType
  elems : List Value
  typed : ∀ v ∈ elems, HasType type v
  plain : type ≠ .simple .vertex ∧ type ≠ .simple .int64 ∧ type ≠ .simple .int32

/-- `IContextColumn`, told apart as far as `create_sp_key` does. -/
inductive KeyColumn where
  | vertex (c : IVertexColumn)
  | int64 (c : ValueColumn (BitVec 64))
  | int32 (c : ValueColumn (BitVec 32))
  | plain (c : PlainColumn)

namespace KeyColumn

def size : KeyColumn → ℕ
  | vertex c => c.size
  | int64 c => c.size
  | int32 c => c.size
  | plain c => c.elems.length

def elemType : KeyColumn → DataType
  | vertex _ => .simple .vertex
  | int64 _ => .simple .int64
  | int32 _ => .simple .int32
  | plain c => c.type

def getElem : KeyColumn → ℕ → Value
  | vertex c, i => c.getElem i
  | int64 c, i => c.getElem .int64 i
  | int32 c, i => c.getElem .int32 i
  | plain c, i => c.elems.getD i .null

end KeyColumn

abbrev Groups := List ℕ × List (List ℕ)

/-- `Key::group` with the given expression. -/
def Groups.ofKey {κ : Type} [DecidableEq κ] (key : ℕ → κ) (n : ℕ) : Groups :=
  ((groupLoop key n).offsets, (groupLoop key n).groups)

def keyTuple (cols : List KeyColumn) (i : ℕ) : List Value := cols.map fun c => c.getElem i
def gkey (cols : List KeyColumn) (n : ℕ) : Groups := .ofKey (fun i => encodeRow (keyTuple cols i)) n

/-- `create_sp_key` and the `group` of the key it makes. -/
def createSpKey : KeyColumn → Option (ℕ → Groups)
  | .vertex c => some (.ofKey c.store.getVertex)
  | .int64 c => some (.ofKey c.getValue)
  | .int32 c => some (.ofKey c.getValue)
  | .plain _ => none

/-- `create_key_func` and the `group` of the key it makes. -/
def createKeyFunc (cols : List KeyColumn) (n : ℕ) : Groups :=
  match cols with
  | [c] => (createSpKey c).elim (gkey [c] n) fun group => group n
  | cols => gkey cols n

def ElemKind.type : ElemKind → DataType
  | any t => t
  | nonNull id => .simple id

/-- What is known of a key column: how its vertices are stored and whether rows may be null, or the
kind of its values. -/
inductive ColumnKind where
  | vertex (type : VertexColumnType) (nulls : Bool)
  | value (k : ElemKind)

namespace ColumnKind

def Is : ColumnKind → KeyColumn → Prop
  | vertex type nulls, .vertex c =>
    c.store.columnType = type ∧ (nulls = false → ∀ v ∈ c.store.vertices, ¬ v.IsNull)
  | vertex _ _, _ => False
  | value _, .vertex _ => False
  | value k, c => c.elemType = k.type ∧ ∀ i < c.size, k.Holds (c.getElem i)

/-- Null has one vertex record in the columns of the kind, or the values are written one to one. -/
def separates : ColumnKind → Bool
  | vertex type nulls => !(type = .multiSegment && nulls)
  | value k => k.selfDelimiting

end ColumnKind

variable {kind : ColumnKind} {c : KeyColumn} {κ : Type} {n : ℕ}

/-- The groups of a key are the right ones exactly if it tells the rows apart like their tuples. -/
theorem exists_elemKind (h : kind.separates = true) (hc : kind.Is c) :
    ∃ k : ElemKind, k.selfDelimiting = true ∧ ∀ i < c.size, k.Holds (c.getElem i) := by
  cases kind with
  | vertex type nulls =>
    cases c with
    | vertex c => exact ⟨.any (.simple .vertex), rfl, fun i hi => IVertexColumn.hasType_getElem hi⟩
    | int64 c | int32 c | plain c => exact hc.elim
  | value k =>
    cases c with
    | vertex c => exact hc.elim
    | int64 c | int32 c | plain c => exact ⟨k, h, hc.2⟩

section

variable {cols : List KeyColumn} {n : ℕ}
  (hcols : ∀ c ∈ cols, c.size = n ∧ ∃ kind : ColumnKind, kind.separates = true ∧ kind.Is c)
include hcols

theorem exists_kinds : ∃ kinds : List ElemKind, (∀ k ∈ kinds, k.selfDelimiting = true) ∧
    ∀ i < n, List.Forall₂ ElemKind.Holds kinds (keyTuple cols i) := by
  induction cols with
  | nil => exact ⟨[], by simp, fun i _ => .nil⟩
  | cons c cols ih =>
    obtain ⟨hsize, kind, hsep, his⟩ := hcols c mem_cons_self
    obtain ⟨k, hk, hholds⟩ := exists_elemKind hsep his
    obtain ⟨kinds, hkinds, htuple⟩ := ih fun c' hc' => hcols c' (mem_cons_of_mem c hc')
    refine ⟨k :: kinds, ?_, fun i hi => .cons (hholds i (hsize ▸ hi)) (htuple i hi)⟩
    intro k' hk'
    rcases mem_cons.mp hk' with rfl | hk'
    · exact hk
    · exact hkinds k' hk'

theorem sameKernel_gkey : SameKernel (fun i => encodeRow (keyTuple cols i)) (keyTuple cols) n := by
  obtain ⟨kinds, hkinds, htuple⟩ := exists_kinds hcols
  intro i j hi hj
  exact encodeRow_inj hkinds (htuple i hi) (htuple j hj)

end

theorem sameKernel_vertex {c : IVertexColumn}
    (h : c.store.columnType ≠ .multiSegment ∨ ∀ v ∈ c.store.vertices, ¬ v.IsNull) :
    SameKernel c.store.getVertex c.getElem c.size := by
  intro i j hi hj
  obtain ⟨v, hv, hgetv⟩ := IVertexColumn.exists_vertex hi
  obtain ⟨w, hw, hgetw⟩ := IVertexColumn.exists_vertex hj
  rw [hgetv, hgetw, IVertexColumn.getElem_of_some hgetv, IVertexColumn.getElem_of_some hgetw]
  by_cases hvnull : v.IsNull <;> by_cases hwnull : w.IsNull
  · -- two null rows
    have hsingle : c.store.columnType ≠ .multiSegment := h.resolve_right fun h => h v hv hvnull
    simp [IVertexColumn.eq_of_isNull hsingle hv hw hvnull hwnull]
  · have hne : v ≠ w := fun h => hwnull (h ▸ hvnull)
    simp [hvnull, hwnull, hne]
  · have hne : v ≠ w := fun h => hvnull (h ▸ hwnull)
    simp [hvnull, hwnull, hne]
  · simp [hvnull, hwnull]

theorem sameKernel_value {T : Type} {c : ValueColumn T} {create : T → Value}
    (hcreate : Function.Injective create) (h : ∀ i < c.size, c.getElem create i ≠ .null) :
    SameKernel c.getValue (c.getElem create) c.size := by
  have helem : ∀ i < c.size, ∃ x, c.getValue i = some x ∧ c.getElem create i = create x := by
    intro i hi
    have hget : c.getValue i = some c.data[i] := getElem?_eq_getElem hi
    refine ⟨c.data[i], hget, ?_⟩
    have hvalid : c.hasValue i = true := by
      by_contra hvalid
      exact h i hi (by rw [ValueColumn.getElem, if_neg hvalid])
    rw [ValueColumn.getElem, if_pos hvalid, hget]
    rfl
  intro i j hi hj
  obtain ⟨x, hx, hxe⟩ := helem i hi
  obtain ⟨y, hy, hye⟩ := helem j hj
  rw [hx, hy, hxe, hye, hcreate.eq_iff, some_inj]

theorem sameKernel_singleton {key : ℕ → κ}
    (h : SameKernel key c.getElem c.size) : SameKernel key (keyTuple [c]) c.size := by
  intro i j hi hj
  rw [h i j hi hj]
  simp [keyTuple]

theorem ElemKind.ne_null {k : ElemKind} {id : SimpleType} (htype : k.type = .simple id)
    (hid : (DataType.simple id).selfDelimiting = false) (hk : k.selfDelimiting = true) {v : Value}
    (hv : k.Holds v) : v ≠ .null := by
  intro hnull
  cases k with
  | any t =>
    have hfalse : t.selfDelimiting = false := by rw [show t = .simple id from htype, hid]
    exact Bool.noConfusion (hfalse.symm.trans hk)
  | nonNull id' =>
    rw [hnull] at hv
    cases id' <;> simp [Holds, SimpleType.Holds] at hv

theorem exists_sameKernel_of_createSpKey {group : ℕ → Groups}
    (hsep : kind.separates = true) (his : kind.Is c) (h : createSpKey c = some group) :
    ∃ (κ : Type) (_ : DecidableEq κ) (key : ℕ → κ), group = Groups.ofKey key ∧
      SameKernel key (keyTuple [c]) c.size := by
  cases c with
  | plain c => cases h
  | vertex c =>
    cases kind with
    | value k => exact his.elim
    | vertex type nulls =>
      refine ⟨_, inferInstance, c.store.getVertex, (some.inj h).symm, ?_⟩
      apply sameKernel_singleton
      apply sameKernel_vertex
      cases nulls with
      | false => exact .inr (his.2 rfl)
      | true =>
        have htype : type ≠ .multiSegment := by simpa [ColumnKind.separates] using hsep
        exact .inl (his.1 ▸ htype)
  | int64 c =>
    cases kind with
    | vertex type nulls => exact his.elim
    | value k =>
      refine ⟨_, inferInstance, c.getValue, (some.inj h).symm, ?_⟩
      apply sameKernel_singleton
      apply sameKernel_value fun x y => Value.int64.inj
      exact fun i hi => ElemKind.ne_null his.1.symm rfl hsep (his.2 i hi)
  | int32 c =>
    cases kind with
    | vertex type nulls => exact his.elim
    | value k =>
      refine ⟨_, inferInstance, c.getValue, (some.inj h).symm, ?_⟩
      apply sameKernel_singleton
      apply sameKernel_value fun x y => Value.int32.inj
      exact fun i hi => ElemKind.ne_null his.1.symm rfl hsep (his.2 i hi)

/-- Columns of separating kinds are grouped by their tuples, whichever key is made. -/
theorem createKeyFunc_of_separates {cols : List KeyColumn}
    (hcols : ∀ c ∈ cols, c.size = n ∧ ∃ kind : ColumnKind, kind.separates = true ∧ kind.Is c) :
    IsGrouping (keyTuple cols) n (createKeyFunc cols n).1 (createKeyFunc cols n).2 ∧
      createKeyFunc cols n = gkey cols n := by
  have hgkey := sameKernel_gkey hcols
  have hgeneric : createKeyFunc cols n = gkey cols n →
      IsGrouping (keyTuple cols) n (createKeyFunc cols n).1 (createKeyFunc cols n).2 := by
    intro h
    rw [h]
    exact (isGrouping_groupLoop n).iff_sameKernel.mpr hgkey
  have heq : createKeyFunc cols n = gkey cols n := by
    match cols with
    | [] => rfl
    | _ :: _ :: _ => rfl
    | [c] =>
      obtain ⟨rfl, kind, hsep, his⟩ := hcols c mem_cons_self
      cases hsp : createSpKey c with
      | none => simp [createKeyFunc, hsp]
      | some group =>
        obtain ⟨κ, _, key, rfl, hkey⟩ := exists_sameKernel_of_createSpKey hsep his hsp
        simp only [createKeyFunc, hsp]
        have hsame := groupLoop_congr fun i j hi hj =>
          (hkey i j hi hj).trans (hgkey i j hi hj).symm
        exact Prod.ext hsame.1 hsame.2
  exact ⟨hgeneric heq, heq⟩

def nullSegments : IVertexColumn where
  store := .multiSegment [(0, [3, nullVid]), (1, [4, nullVid])]
  isOptional := true
  valid := by decide
  nonNull := by decide
  nullRecord := by decide

/-- A null row, for which `push_back_null` stores zero, and a zero. -/
def nullAndZero (T : Type) [Zero T] : ValueColumn T where
  data := [0, 0]
  valid := [false, true]
  isOptional := true
  aligned _ := rfl

/-- Two rows that differ in a column and are written alike go into one group. -/
theorem not_isGrouping_gkey (cols : List KeyColumn) {i j : ℕ} (hi : i < n) (hj : j < n)
    (hne : keyTuple cols i ≠ keyTuple cols j)
    (he : encodeRow (keyTuple cols i) = encodeRow (keyTuple cols j)) :
    ¬ IsGrouping (keyTuple cols) n (gkey cols n).1 (gkey cols n).2 := by
  intro h
  exact hne (((isGrouping_groupLoop n).iff_sameKernel.mp h i j hi hj).mp he)

theorem ElemKind.hasType {k : ElemKind} {v : Value} (h : k.Holds v) : HasType k.type v := by
  cases k with
  | any t => exact h
  | nonNull id => exact .inr h

def pairColumn {k : ElemKind}
    (hplain : k.type ≠ .simple .vertex ∧ k.type ≠ .simple .int64 ∧ k.type ≠ .simple .int32)
    {a b : Value} (ha : k.Holds a) (hb : k.Holds b) : KeyColumn :=
  .plain ⟨k.type, [a, b], by simp [ElemKind.hasType ha, ElemKind.hasType hb], hplain⟩

def ColumnKind.Mixes (kind : ColumnKind) : Prop :=
  ∃ (cols : List KeyColumn) (n : ℕ), (∀ c ∈ cols, c.size = n ∧ kind.Is c) ∧
    ¬ IsGrouping (keyTuple cols) n (createKeyFunc cols n).1 (createKeyFunc cols n).2

section

variable {k : ElemKind}
  (hplain : k.type ≠ .simple .vertex ∧ k.type ≠ .simple .int64 ∧ k.type ≠ .simple .int32)
include hplain

theorem is_pairColumn {a b : Value} (ha : k.Holds a) (hb : k.Holds b) :
    (pairColumn hplain ha hb).size = 2 ∧ (ColumnKind.value k).Is (pairColumn hplain ha hb) := by
  refine ⟨rfl, rfl, fun i hi => ?_⟩
  match i, hi with
  | 0, _ => exact ha
  | 1, _ => exact hb

theorem mixes_of_merged (h : Merged k.Holds) : (ColumnKind.value k).Mixes := by
  obtain ⟨a, b, ha, hb, hne, he⟩ := h
  refine ⟨[pairColumn hplain ha hb], 2, ?_, ?_⟩
  · intro c hc
    rw [mem_singleton.mp hc]
    exact is_pairColumn hplain ha hb
  · apply not_isGrouping_gkey [pairColumn hplain ha hb] (i := 0) (j := 1)
    · decide
    · decide
    · simpa [keyTuple, pairColumn, KeyColumn.getElem] using hne
    · simpa [keyTuple, pairColumn, KeyColumn.getElem, encodeRow] using he

theorem mixes_of_continued (hnull : k.Holds .null) (h : Continued k.Holds) :
    (ColumnKind.value k).Mixes := by
  obtain ⟨a, b, ha, hb, hne, he⟩ := h
  refine ⟨[pairColumn hplain ha hb, pairColumn hplain hnull ha, pairColumn hplain hb hnull], 2,
    ?_, ?_⟩
  · intro c hc
    simp only [mem_cons, not_mem_nil, or_false] at hc
    rcases hc with rfl | rfl | rfl
    · exact is_pairColumn hplain ha hb
    · exact is_pairColumn hplain hnull ha
    · exact is_pairColumn hplain hb hnull
  · apply not_isGrouping_gkey _ (i := 0) (j := 1)
    · decide
    · decide
    · simp [keyTuple, pairColumn, KeyColumn.getElem, hne]
    · simpa [keyTuple, pairColumn, KeyColumn.getElem] using encodeRow_three he

end

theorem mixes_of_createSpKey [DecidableEq κ]
    {key : ℕ → κ} {i j : ℕ} (his : kind.Is c) (h : createSpKey c = some (Groups.ofKey key))
    (hi : i < c.size) (hj : j < c.size)
    (hdiffer : ¬ (key i = key j ↔ c.getElem i = c.getElem j)) : kind.Mixes := by
  refine ⟨[c], c.size, by simpa using his, fun hgroup => ?_⟩
  simp only [createKeyFunc, h] at hgroup
  apply hdiffer
  rw [(isGrouping_groupLoop _).iff_sameKernel.mp hgroup i j hi hj]
  simp [keyTuple]

theorem forall_lt_two {P : ℕ → Prop} (h0 : P 0) (h1 : P 1) : ∀ i < 2, P i := by
  intro i hi
  interval_cases i
  · exact h0
  · exact h1

theorem mixes_of_not_separates (h : kind.separates = false) : kind.Mixes := by
  cases kind with
  | vertex type nulls =>
    simp only [ColumnKind.separates, Bool.not_eq_false', Bool.and_eq_true, decide_eq_true_eq] at h
    obtain ⟨rfl, rfl⟩ := h
    have his : (ColumnKind.vertex .multiSegment true).Is (.vertex nullSegments) :=
      ⟨rfl, fun h => Bool.noConfusion h⟩
    apply mixes_of_createSpKey (i := 1) (j := 3) his rfl
    · decide
    · decide
    · simp [KeyColumn.getElem, IVertexColumn.getElem, nullSegments, VertexColumn.getVertex,
        VertexColumn.getVertex.inSegments, VertexRecord.IsNull]
  | value k =>
    cases k with
    | nonNull id =>
      have hplain : ElemKind.type (.nonNull id) ≠ .simple .vertex ∧
          ElemKind.type (.nonNull id) ≠ .simple .int64 ∧
          ElemKind.type (.nonNull id) ≠ .simple .int32 := by
        cases id <;> simp_all [ElemKind.type, ColumnKind.separates, ElemKind.selfDelimiting,
          SimpleType.oneToOne]
      exact mixes_of_merged hplain (merged_of_not_oneToOne h)
    | any t =>
      by_cases h64 : t = .simple .int64
      · subst h64
        have his : (ColumnKind.value (.any (.simple .int64))).Is (.int64 (nullAndZero _)) :=
          ⟨rfl, forall_lt_two (.inl rfl) (.inr ⟨0, rfl⟩)⟩
        apply mixes_of_createSpKey (i := 0) (j := 1) his rfl
        · decide
        · decide
        · simp [KeyColumn.getElem, ValueColumn.getElem, ValueColumn.hasValue, nullAndZero,
            ValueColumn.getValue]
      by_cases h32 : t = .simple .int32
      · subst h32
        have his : (ColumnKind.value (.any (.simple .int32))).Is (.int32 (nullAndZero _)) :=
          ⟨rfl, forall_lt_two (.inl rfl) (.inr ⟨0, rfl⟩)⟩
        apply mixes_of_createSpKey (i := 0) (j := 1) his rfl
        · decide
        · decide
        · simp [KeyColumn.getElem, ValueColumn.getElem, ValueColumn.hasValue, nullAndZero,
            ValueColumn.getValue]
      have hplain : ElemKind.type (.any t) ≠ .simple .vertex ∧
          ElemKind.type (.any t) ≠ .simple .int64 ∧ ElemKind.type (.any t) ≠ .simple .int32 := by
        refine ⟨fun hv => ?_, h64, h32⟩
        rw [show t = .simple .vertex from hv] at h
        cases h
      rcases merged_or_continued t h with hm | hc
      · exact mixes_of_merged hplain hm
      · exact mixes_of_continued hplain (hasType_null t) hc

end Neug.Execution
