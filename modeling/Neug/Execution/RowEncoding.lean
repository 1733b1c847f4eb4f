import Neug.Execution.Context
import Neug.Execution.Value
import Neug.Lib.Grouping

/-! Rows of values as keys: what their bytes tell apart. -/
namespace Neug.Execution
open Neug.Lib List Bool

/-- The bytes of a row as `GKey::group` writes them. -/
def encodeRow (row : List Value) : List UInt8 := row.flatMap encodeValue

/-- The bytes of a row as `Dedup::dedup` writes them, with a `#` behind every value. -/
def encodeRowHash (row : List Value) : List UInt8 :=
  row.flatMap fun v => encodeValue v ++ putByte 35

/-- The loop of `Dedup::dedup` over `n` rows, with the values of the key columns in each row. -/
def dedupOffsets (row : ℕ → List Value) (n : ℕ) : List ℕ :=
  (dedupLoop (fun i => encodeRowHash (row i)) n).2

/-- The loop of `GKey::group`. -/
def gkeyGroup (row : ℕ → List Value) (n : ℕ) : GroupState (List UInt8) :=
  groupLoop (fun i => encodeRow (row i)) n

/-- The simple types whose values other than null are written one to one. The time of a date or an
interval, the ends of an edge and the vertices of a path do not determine it. -/
def SimpleType.oneToOne : SimpleType → Bool
  | date | interval | edge | path => false
  | _ => true

/-- The types of which no value, null included, is written as the beginning of another one. -/
def DataType.selfDelimiting : DataType → Bool
  | .simple .boolean | .simple .varchar | .simple .vertex => true
  | .simple _ => false
  | .list t => t.selfDelimiting
  | .struct ts => decide (2 ^ 31 ≤ ts.length) || allDelimiting ts
where
  allDelimiting : List DataType → Bool
    | [] => true
    | t :: ts => t.selfDelimiting && allDelimiting ts

/-- What is known of the values of a column: their type, or a simple type and that none of them is
null. -/
inductive ElemKind where
  | any (t : DataType)
  | nonNull (id : SimpleType)

namespace ElemKind

def Holds : ElemKind → Value → Prop
  | any t, v => HasType t v
  | nonNull id, v => id.Holds v

def selfDelimiting : ElemKind → Bool
  | any t => t.selfDelimiting
  | nonNull id => id.oneToOne

end ElemKind

theorem allDelimiting_iff {ts : List DataType} :
    DataType.selfDelimiting.allDelimiting ts = true ↔ ∀ t ∈ ts, t.selfDelimiting = true := by
  induction ts with
  | nil => simp [DataType.selfDelimiting.allDelimiting]
  | cons t ts ih => simp [DataType.selfDelimiting.allDelimiting, ih]

theorem DataType.induction {motive : DataType → Prop} (simple : ∀ id, motive (.simple id))
    (list : ∀ t, motive t → motive (.list t))
    (struct : ∀ ts, (∀ t ∈ ts, motive t) → motive (.struct ts)) : ∀ t, motive t := by
  intro t
  refine @DataType.rec motive (fun ts => ∀ t ∈ ts, motive t) simple list struct ?_ ?_ t
  · simp
  · intro head tail hhead htail t ht
    rcases mem_cons.mp ht with rfl | ht
    · exact hhead
    · exact htail t ht

theorem delimits_putInt : Delimits putInt fun _ => True :=
  .of_length (fun v _ => length_leBytes 4 v.toNat) fun v w _ _ h =>
    BitVec.eq_of_toNat_eq (leBytes_injOn v.isLt w.isLt h)

theorem delimits_putLong : Delimits putLong fun _ => True :=
  .of_length (fun v _ => length_leBytes 8 v.toNat) fun v w _ _ h =>
    BitVec.eq_of_toNat_eq (leBytes_injOn v.isLt w.isLt h)

theorem delimits_putByte : Delimits putByte (· < 256) := by
  apply Delimits.of_length
  · intro v _
    rfl
  · intro v w hv hw h
    have hbyte : UInt8.ofNat v = UInt8.ofNat w := by simpa [putByte] using h
    have hnat := congrArg UInt8.toNat hbyte
    rwa [UInt8.toNat_ofNat', UInt8.toNat_ofNat', Nat.mod_eq_of_lt hv, Nat.mod_eq_of_lt hw] at hnat

theorem count_inj {n m : ℕ} {x y : List UInt8} (hn : n < 2 ^ 31) (hm : m < 2 ^ 31)
    (h : putInt (BitVec.ofNat 32 n) ++ x = putInt (BitVec.ofNat 32 m) ++ y) : n = m ∧ x = y := by
  obtain ⟨hcount, hrest⟩ := delimits_putInt trivial trivial h
  have hnat := congrArg BitVec.toNat hcount
  simp only [BitVec.toNat_ofNat] at hnat
  exact ⟨by omega, hrest⟩

theorem count_ne_null {n : ℕ} {x y : List UInt8} (hn : n < 2 ^ 31) :
    putInt (BitVec.ofNat 32 n) ++ x ≠ putInt (-1) ++ y := by
  intro h
  have hnat := congrArg BitVec.toNat (delimits_putInt trivial trivial h).1
  rw [BitVec.toNat_ofNat, show (-1 : BitVec 32).toNat = 2 ^ 32 - 1 from rfl] at hnat
  omega

theorem delimits_putVertex : Delimits putVertex VertexRecord.Valid := by
  intro v w r s hv hw h
  obtain ⟨hv1, hv2⟩ := hv
  obtain ⟨hw1, hw2⟩ := hw
  obtain ⟨hlabel, hrest⟩ := delimits_putByte (by omega) (by omega) h
  obtain ⟨hvid, hrest⟩ := delimits_putInt trivial trivial hrest
  have hnat := congrArg BitVec.toNat hvid
  simp only [BitVec.toNat_ofNat] at hnat
  refine ⟨?_, hrest⟩
  cases v
  cases w
  simp only [VertexRecord.mk.injEq]
  exact ⟨hlabel, by simp only at hv2 hw2 hnat; omega⟩

theorem delimits_putStringView : Delimits putStringView (·.length < 2 ^ 31) := by
  intro a b r s ha hb h
  obtain ⟨hlen, hrest⟩ := count_inj ha hb h
  exact append_inj hrest hlen

variable {t : DataType} {id : SimpleType} {P : Value → Prop}

theorem delimits_oneToOne (h : id.oneToOne = true) : Delimits encodeValue id.Holds := by
  intro a b r s ha hb he
  cases id with
  | boolean =>
    obtain ⟨x, rfl⟩ := ha
    obtain ⟨y, rfl⟩ := hb
    obtain ⟨hbyte, hrest⟩ := delimits_putByte (by split_ifs <;> decide) (by split_ifs <;> decide) he
    exact ⟨by cases x <;> cases y <;> simp_all, hrest⟩
  | varchar =>
    obtain ⟨x, rfl, hx⟩ := ha
    obtain ⟨y, rfl, hy⟩ := hb
    obtain ⟨rfl, hrest⟩ := delimits_putStringView hx hy he
    exact ⟨rfl, hrest⟩
  | vertex =>
    obtain ⟨x, rfl, hx⟩ := ha
    obtain ⟨y, rfl, hy⟩ := hb
    obtain ⟨rfl, hrest⟩ := delimits_putVertex hx hy he
    exact ⟨rfl, hrest⟩
  | int32 | uint32 | float =>
    obtain ⟨x, rfl⟩ := ha
    obtain ⟨y, rfl⟩ := hb
    obtain ⟨rfl, hrest⟩ := delimits_putInt trivial trivial he
    exact ⟨rfl, hrest⟩
  | int64 | uint64 | double | timestampMs =>
    obtain ⟨x, rfl⟩ := ha
    obtain ⟨y, rfl⟩ := hb
    obtain ⟨rfl, hrest⟩ := delimits_putLong trivial trivial he
    exact ⟨rfl, hrest⟩
  | date | interval | edge | path => cases h

theorem delimits_or_null (hP : Delimits encodeValue P)
    (hnull : ∀ v, P v → ∀ r s, encodeValue v ++ r ≠ putInt (-1) ++ s) :
    Delimits encodeValue fun v => v = .null ∨ P v := by
  intro a b r s ha hb he
  rcases ha with rfl | ha <;> rcases hb with rfl | hb
  · exact ⟨rfl, append_cancel_left he⟩
  · exact absurd he.symm (by simpa only [encodeValue] using hnull b hb s r)
  · exact absurd he (by simpa only [encodeValue] using hnull a ha r s)
  · exact hP ha hb he

theorem putInt_neg_one : putInt (-1) = [255, 255, 255, 255] := by decide

theorem putByte_ne_null {n : ℕ} {x y : List UInt8} (hn : n < 255) :
    putByte n ++ x ≠ putInt (-1) ++ y := by
  intro h
  rw [putInt_neg_one] at h
  simp only [putByte, cons_append, cons.injEq] at h
  have hnat := congrArg UInt8.toNat h.1
  rw [UInt8.toNat_ofNat', show (255 : UInt8).toNat = 255 from rfl] at hnat
  omega

theorem simple_ne_null (h : (DataType.simple id).selfDelimiting = true)
    {v : Value} (hv : id.Holds v) (r s : List UInt8) : encodeValue v ++ r ≠ putInt (-1) ++ s := by
  cases id with
  | boolean =>
    obtain ⟨b, rfl⟩ := hv
    exact putByte_ne_null (by split_ifs <;> decide)
  | varchar =>
    obtain ⟨x, rfl, hx⟩ := hv
    exact count_ne_null hx
  | vertex =>
    obtain ⟨x, rfl, hx⟩ := hv
    exact putByte_ne_null hx.1
  | _ => cases h

theorem counted_inj {Ps : List (Value → Prop)} (hPs : ∀ P ∈ Ps, Delimits encodeValue P)
    {vs ws : List Value} {r s : List UInt8} (hv : vs.length < 2 ^ 31) (hw : ws.length < 2 ^ 31)
    (hvs : Forall₂ (fun P v => P v) Ps vs) (hws : Forall₂ (fun P v => P v) Ps ws)
    (h : putInt (BitVec.ofNat 32 vs.length) ++ encodeValues vs ++ r =
      putInt (BitVec.ofNat 32 ws.length) ++ encodeValues ws ++ s) : vs = ws ∧ r = s := by
  simp only [encodeValues_eq] at h
  obtain ⟨-, hrest⟩ := count_inj hv hw h
  exact Delimits.flatMap Ps hPs hvs hws hrest

theorem forall₂_replicate {vs : List Value} (h : ∀ v ∈ vs, P v) :
    Forall₂ (fun (P : Value → Prop) v => P v) (replicate vs.length P) vs := by
  induction vs with
  | nil => exact .nil
  | cons v vs ih =>
    exact .cons (h v mem_cons_self) (ih fun x hx => h x (mem_cons_of_mem v hx))

/-- Values of self-delimiting types can be told from whatever follows. -/
theorem delimits_of_selfDelimiting (t : DataType) :
    t.selfDelimiting = true → Delimits encodeValue (HasType t) := by
  induction t using DataType.induction with
  | simple id =>
    intro h
    apply delimits_or_null (delimits_oneToOne (by cases id <;> first | rfl | cases h))
    intro v hv
    exact simple_ne_null h hv
  | list t ih =>
    intro h
    have hdel := ih h
    apply delimits_or_null
    · intro a b r s ha hb he
      obtain ⟨vs, rfl, hvlen, hvs⟩ := ha
      obtain ⟨ws, rfl, hwlen, hws⟩ := hb
      have hcount : vs.length = ws.length := by
        exact (count_inj hvlen hwlen he).1
      have hPs : ∀ P ∈ replicate vs.length (HasType t), Delimits encodeValue P := by
        intro P hP
        rwa [eq_of_mem_replicate hP]
      obtain ⟨rfl, hrest⟩ := counted_inj hPs hvlen hwlen (forall₂_replicate hvs)
        (hcount ▸ forall₂_replicate hws) he
      exact ⟨rfl, hrest⟩
    · intro v hv r s
      obtain ⟨vs, rfl, hlen, -⟩ := hv
      exact count_ne_null hlen
  | struct ts ih =>
    intro h
    apply delimits_or_null
    · intro a b r s ha hb he
      obtain ⟨vs, rfl, hvlen, hvs⟩ := ha
      obtain ⟨ws, rfl, hwlen, hws⟩ := hb
      rw [hasTypes_iff] at hvs hws
      have hlen := hvs.length_eq
      have hall : ∀ t ∈ ts, t.selfDelimiting = true := by
        rw [DataType.selfDelimiting, or_eq_true, decide_eq_true_eq] at h
        exact allDelimiting_iff.mp (h.resolve_left (by omega))
      have hPs : ∀ P ∈ ts.map HasType, Delimits encodeValue P := by
        intro P hP
        obtain ⟨t, ht, rfl⟩ := mem_map.mp hP
        exact ih t ht (hall t ht)
      obtain ⟨rfl, hrest⟩ := counted_inj hPs hvlen hwlen
        (forall₂_map_left_iff.mpr hvs) (forall₂_map_left_iff.mpr hws) he
      exact ⟨rfl, hrest⟩
    · intro v hv r s
      obtain ⟨vs, rfl, hlen, -⟩ := hv
      exact count_ne_null hlen

theorem ElemKind.delimits {k : ElemKind} (h : k.selfDelimiting = true) :
    Delimits encodeValue k.Holds := by
  cases k with
  | any t => exact delimits_of_selfDelimiting t h
  | nonNull id => exact delimits_oneToOne h

def Merged (P : Value → Prop) : Prop :=
  ∃ a b, P a ∧ P b ∧ a ≠ b ∧ encodeValue a = encodeValue b

def Continued (P : Value → Prop) : Prop :=
  ∃ a b, P a ∧ P b ∧ a ≠ b ∧ encodeValue b = encodeValue a ++ encodeValue .null

theorem Merged.mono {Q : Value → Prop} (h : Merged P) (hQ : ∀ v, P v → Q v) : Merged Q := by
  obtain ⟨a, b, ha, hb, hne, he⟩ := h
  exact ⟨a, b, hQ a ha, hQ b hb, hne, he⟩

/-- The last day of a February that has none and the day of March it stands for, two intervals that
differ in their months, parallel edges, and paths along them. -/
theorem merged_of_not_oneToOne (h : id.oneToOne = false) : Merged id.Holds := by
  cases id with
  | date =>
    exact ⟨.date ⟨0, 31, 2, 2023⟩, .date ⟨0, 3, 3, 2023⟩, ⟨_, rfl⟩, ⟨_, rfl⟩, by simp, by
      simp only [encodeValue]
      rw [show Date.toTimestamp ⟨0, 31, 2, 2023⟩ = Date.toTimestamp ⟨0, 3, 3, 2023⟩ by decide]⟩
  | interval =>
    exact ⟨.interval ⟨0, 0, 0⟩, .interval ⟨1, 0, 0⟩, ⟨_, rfl⟩, ⟨_, rfl⟩, by simp, rfl⟩
  | edge =>
    exact ⟨.edge ⟨⟨0, 0, 0⟩, 0, 1, 0, .out⟩, .edge ⟨⟨0, 0, 0⟩, 0, 1, 1, .out⟩,
      ⟨_, rfl, by decide⟩, ⟨_, rfl, by decide⟩, by simp, rfl⟩
  | path =>
    exact ⟨.path ⟨⟨0, 0⟩, [⟨0, .out, ⟨0, 1⟩, 0⟩]⟩, .path ⟨⟨0, 0⟩, [⟨0, .out, ⟨0, 1⟩, 1⟩]⟩,
      ⟨_, rfl, by decide⟩, ⟨_, rfl, by decide⟩, by simp, rfl⟩
  | _ => cases h

theorem merged_or_continued_simple (h : (DataType.simple id).selfDelimiting = false) :
    Merged (HasType (.simple id)) ∨ Continued (HasType (.simple id)) := by
  have hnull : HasType (.simple id) .null := .inl rfl
  cases id with
  | boolean | varchar | vertex => cases h
  | int32 => exact .inl ⟨.null, .int32 (-1), hnull, .inr ⟨_, rfl⟩, by simp, rfl⟩
  | uint32 => exact .inl ⟨.null, .uint32 (-1), hnull, .inr ⟨_, rfl⟩, by simp, rfl⟩
  | float => exact .inl ⟨.null, .float (-1), hnull, .inr ⟨_, rfl⟩, by simp, rfl⟩
  | int64 => exact .inr ⟨.null, .int64 (-1), hnull, .inr ⟨_, rfl⟩, by simp, rfl⟩
  | uint64 => exact .inr ⟨.null, .uint64 (-1), hnull, .inr ⟨_, rfl⟩, by simp, rfl⟩
  | double => exact .inr ⟨.null, .double (-1), hnull, .inr ⟨_, rfl⟩, by simp, rfl⟩
  | timestampMs => exact .inr ⟨.null, .timestampMs (-1), hnull, .inr ⟨_, rfl⟩, by simp, rfl⟩
  | date | interval | edge | path =>
    exact .inl ((merged_of_not_oneToOne rfl).mono fun v hv => .inr hv)

/-- With a value written like another one and null, three places are enough for two readings. -/
theorem encodeRow_three {a b : Value} (h : encodeValue b = encodeValue a ++ encodeValue .null) :
    encodeRow [a, .null, b] = encodeRow [b, a, .null] := by
  simp [encodeRow, h]

theorem merged_list (h : Merged (HasType t) ∨ Continued (HasType t)) :
    Merged (HasType (.list t)) := by
  rcases h with ⟨a, b, ha, hb, hne, he⟩ | ⟨a, b, ha, hb, hne, he⟩
  · refine ⟨.list [a], .list [b], .inr ⟨_, rfl, by simp, by simpa⟩,
      .inr ⟨_, rfl, by simp, by simpa⟩, by simpa, ?_⟩
    simp [encodeValue, encodeValues, he]
  · have hnull := hasType_null t
    refine ⟨.list [a, .null, b], .list [b, a, .null],
      .inr ⟨_, rfl, by simp, by simp [ha, hb, hnull]⟩,
      .inr ⟨_, rfl, by simp, by simp [ha, hb, hnull]⟩, by simp [hne], ?_⟩
    have hrow := encodeRow_three he
    simp only [encodeRow] at hrow
    simp only [encodeValue, encodeValues_eq, hrow]
    rfl

def lone (before : List DataType) (v : Value) (after : List DataType) : Value :=
  .struct (before.map (fun _ => .null) ++ v :: after.map fun _ => .null)

theorem hasType_lone {before after : List DataType} {v : Value}
    (hlen : (before ++ t :: after).length < 2 ^ 31) (hv : HasType t v) :
    HasType (.struct (before ++ t :: after)) (lone before v after) := by
  have hnulls : ∀ ts, Forall₂ HasType ts (ts.map fun _ => Value.null) := by
    intro ts
    rw [forall₂_map_right_iff, forall₂_same]
    exact fun t _ => hasType_null t
  refine .inr ⟨_, rfl, by simpa using hlen, hasTypes_iff.mpr ?_⟩
  exact rel_append (hnulls before) (.cons hv (hnulls after))

theorem encodeValue_lone (before after : List DataType) (v : Value) :
    encodeValue (lone before v after) =
      putInt (BitVec.ofNat 32 (before.length + after.length + 1)) ++
        encodeRow (before.map fun _ => .null) ++ encodeValue v ++
        encodeRow (after.map fun _ => .null) := by
  simp [lone, encodeValue, encodeValues_eq, encodeRow, add_assoc]

theorem null_encodeRow_nulls (ts : List DataType) :
    encodeValue .null ++ encodeRow (ts.map fun _ => .null) =
      encodeRow (ts.map fun _ => .null) ++ encodeValue .null := by
  have hrow : ∀ n, encodeValue .null ++ encodeRow (replicate n .null) =
      encodeRow (replicate n .null ++ [.null]) := by
    intro n
    rw [← replicate_succ', replicate_succ, encodeRow, encodeRow, flatMap_cons]
  rw [map_const', hrow]
  simp [encodeRow]

theorem merged_or_continued_struct {ts : List DataType} (ht : t ∈ ts)
    (hlen : ts.length < 2 ^ 31) (h : Merged (HasType t) ∨ Continued (HasType t)) :
    Merged (HasType (.struct ts)) ∨ Continued (HasType (.struct ts)) := by
  obtain ⟨before, after, rfl⟩ := append_of_mem ht
  have hne : ∀ {a b : Value}, a ≠ b → lone before a after ≠ lone before b after := by
    intro a b hab h
    simp only [lone, Value.struct.injEq, append_cancel_left_eq, cons.injEq] at h
    exact hab h.1
  rcases h with ⟨a, b, ha, hb, hab, he⟩ | ⟨a, b, ha, hb, hab, he⟩
  · refine .inl ⟨_, _, hasType_lone hlen ha, hasType_lone hlen hb, hne hab, ?_⟩
    rw [encodeValue_lone, encodeValue_lone, he]
  · -- the null behind the field moves over the nulls of the fields after it
    refine .inr ⟨_, _, hasType_lone hlen ha, hasType_lone hlen hb, hne hab, ?_⟩
    rw [encodeValue_lone, encodeValue_lone, he]
    simp only [append_assoc, null_encodeRow_nulls]

theorem merged_or_continued (t : DataType) :
    t.selfDelimiting = false → Merged (HasType t) ∨ Continued (HasType t) := by
  induction t using DataType.induction with
  | simple id => exact merged_or_continued_simple
  | list t ih =>
    intro h
    exact .inl (merged_list (ih h))
  | struct ts ih =>
    intro h
    rw [DataType.selfDelimiting, or_eq_false_iff, decide_eq_false_iff_not, not_le] at h
    have hsome : ∃ t ∈ ts, t.selfDelimiting = false := by
      by_contra! hnone
      have hall := allDelimiting_iff.mpr fun t ht => eq_true_of_not_eq_false (hnone t ht)
      exact Bool.noConfusion (h.2.symm.trans hall)
    obtain ⟨t, ht, hfalse⟩ := hsome
    exact merged_or_continued_struct ht h.1 (ih t ht hfalse)

theorem ElemKind.exists_collision {k : ElemKind} (h : k.selfDelimiting = false) :
    ∃ (kinds : List ElemKind) (row row' : List Value), (∀ k' ∈ kinds, k' = k) ∧
      Forall₂ Holds kinds row ∧ Forall₂ Holds kinds row' ∧ row ≠ row' ∧
      encodeRow row = encodeRow row' := by
  have hmerged : Merged k.Holds → ∃ (kinds : List ElemKind) (row row' : List Value),
      (∀ k' ∈ kinds, k' = k) ∧ Forall₂ Holds kinds row ∧ Forall₂ Holds kinds row' ∧
      row ≠ row' ∧ encodeRow row = encodeRow row' := by
    intro hm
    obtain ⟨a, b, ha, hb, hne, he⟩ := hm
    exact ⟨[k], [a], [b], by simp, .cons ha .nil, .cons hb .nil, by simpa, by simp [encodeRow, he]⟩
  cases k with
  | any t =>
    rcases merged_or_continued t h with hm | ⟨a, b, ha, hb, hne, he⟩
    · exact hmerged hm
    · have hnull : Holds (any t) .null := hasType_null t
      exact ⟨[any t, any t, any t], [a, .null, b], [b, a, .null], by simp,
        .cons ha (.cons hnull (.cons hb .nil)), .cons hb (.cons ha (.cons hnull .nil)),
        by simp [hne], encodeRow_three he⟩
  | nonNull id => exact hmerged (merged_of_not_oneToOne h)

section

variable {kinds : List ElemKind} (hkinds : ∀ k ∈ kinds, k.selfDelimiting = true)
include hkinds

theorem delimits_holds : ∀ P ∈ kinds.map ElemKind.Holds, Delimits encodeValue P := by
  intro P hP
  obtain ⟨k, hk, rfl⟩ := mem_map.mp hP
  exact ElemKind.delimits (hkinds k hk)

section

variable {row row' : List Value} (hrow : List.Forall₂ ElemKind.Holds kinds row)
  (hrow' : List.Forall₂ ElemKind.Holds kinds row')
include hrow hrow'

theorem encodeRow_inj : encodeRow row = encodeRow row' ↔ row = row' := by
  constructor
  · exact (Delimits.flatMap _ (delimits_holds hkinds)).injective
      (forall₂_map_left_iff.mpr hrow) (forall₂_map_left_iff.mpr hrow')
  · intro h
    rw [h]

theorem encodeRowHash_inj : encodeRowHash row = encodeRowHash row' ↔ row = row' := by
  have hdel : ∀ P ∈ kinds.map ElemKind.Holds, Delimits (fun v => encodeValue v ++ putByte 35) P :=
    fun P hP => (delimits_holds hkinds P hP).append_separator _
  constructor
  · exact (Delimits.flatMap _ hdel).injective
      (forall₂_map_left_iff.mpr hrow) (forall₂_map_left_iff.mpr hrow')
  · intro h
    rw [h]

end

end

end Neug.Execution
