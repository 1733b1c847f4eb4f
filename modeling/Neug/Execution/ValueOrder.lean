import Neug.Execution.Value

/-! `Value::operator==` and `Value::operator<` on lists and structs. -/
namespace Neug.Execution
open List Function

/-- `EqOp` and `LtOp`. -/
inductive ComparisonOp where
  | eq
  | lt

def ComparisonOp.operation {α : Type} [LinearOrder α] : ComparisonOp → α → α → Bool
  | .eq, x, y => x = y
  | .lt, x, y => x < y

/-- The comparison of values that hold no other values; `other` compares those that are neither
integers nor strings. -/
def compareSimple (other : ComparisonOp → Value → Value → Bool) (op : ComparisonOp) :
    Value → Value → Bool
  | .int32 x, .int32 y => op.operation x.toInt y.toInt
  | .uint32 x, .uint32 y => op.operation x.toNat y.toNat
  | .int64 x, .int64 y => op.operation x.toInt y.toInt
  | .uint64 x, .uint64 y => op.operation x.toNat y.toNat
  | .varchar x, .varchar y => op.operation (x.map UInt8.toNat) (y.map UInt8.toNat)
  | x, y => other op x y

variable (other : ComparisonOp → Value → Value → Bool)

mutual

/-- `Value::ApplyComparisonOp`, on two values of one type that are not null. -/
def applyComparisonOp (op : ComparisonOp) : Value → Value → Bool
  | .struct xs, .struct ys => applyToChildren op xs ys
  | .list xs, .list ys =>
    applyToChildren op xs ys && if xs.length ≠ ys.length then xs.length < ys.length else true
  | x, y => compareSimple other op x y

/-- The loop over the children that both values have. -/
def applyToChildren (op : ComparisonOp) : List Value → List Value → Bool
  | x :: xs, y :: ys => applyComparisonOp op x y && applyToChildren op xs ys
  | _, _ => true

end

mutual

/-- The lexicographic order. -/
def LexLess : Value → Value → Prop
  | .struct xs, .struct ys | .list xs, .list ys => LexLesses xs ys
  | x, y => compareSimple other .lt x y = true

def LexLesses : List Value → List Value → Prop
  | x :: xs, y :: ys => LexLess x y ∨ x = y ∧ LexLesses xs ys
  | [], _ :: _ => True
  | _, [] => False

end

/-- The types of lists and structs nested over integers and strings. -/
inductive NestedType where
  | int32 | uint32 | int64 | uint64 | varchar
  | list (elem : NestedType)
  | struct {n : ℕ} (fields : Fin n → NestedType)

namespace NestedType

def Holds : NestedType → Value → Prop
  | int32, v => ∃ x, v = .int32 x
  | uint32, v => ∃ x, v = .uint32 x
  | int64, v => ∃ x, v = .int64 x
  | uint64, v => ∃ x, v = .uint64 x
  | varchar, v => ∃ s, v = .varchar s
  | list t, v => ∃ vs, v = .list vs ∧ ∀ x ∈ vs, t.Holds x
  | struct fields, v => ∃ xs, v = .struct (ofFn xs) ∧ ∀ i, (fields i).Holds (xs i)

/-- All values of the type are equal: a struct without fields, or with such fields only. -/
def Single (t : NestedType) : Prop := ∀ a b, t.Holds a → t.Holds b → a = b

/-- Integers, strings, and structs of which one field is lawful and the others have one value. -/
inductive Lawful : NestedType → Prop where
  | int32 : Lawful int32
  | uint32 : Lawful uint32
  | int64 : Lawful int64
  | uint64 : Lawful uint64
  | varchar : Lawful varchar
  | struct {n : ℕ} {fields : Fin n → NestedType} (k : Fin n) (hk : Lawful (fields k))
      (hrest : ∀ i ≠ k, (fields i).Single) : Lawful (struct fields)

end NestedType

/-- The two operators are equality and the lexicographic order at two values, and one of the three
relations holds. -/
@[mk_iff]
structure LawfulAt (a b : Value) : Prop where
  eq : applyComparisonOp other .eq a b = true ↔ a = b
  less : applyComparisonOp other .lt a b = true ↔ LexLess other a b
  one : (applyComparisonOp other .lt a b).toNat + (applyComparisonOp other .eq a b).toNat +
    (applyComparisonOp other .lt b a).toNat = 1

variable {other} {n : ℕ} {xs ys : Fin n → Value}

theorem applyToChildren_ofFn {op : ComparisonOp} :
    applyToChildren other op (ofFn xs) (ofFn ys) = true ↔
      ∀ i, applyComparisonOp other op (xs i) (ys i) = true := by
  induction n with
  | zero => simp [applyToChildren]
  | succ n ih => simp [applyToChildren, ih, Fin.forall_fin_succ]

theorem lexLesses_ofFn : LexLesses other (ofFn xs) (ofFn ys) ↔
    ∃ i, (∀ j < i, xs j = ys j) ∧ LexLess other (xs i) (ys i) := by
  induction n with
  | zero => simp [LexLesses]
  | succ n ih =>
    simp only [ofFn_succ, LexLesses, ih, Fin.exists_fin_succ, not_lt_zero, false_imp_iff,
      implies_true, true_and, Fin.forall_fin_succ, Fin.succ_pos, forall_true_left,
      Fin.succ_lt_succ_iff, exists_and_left, and_assoc]

theorem lawfulAt_of_operation {α : Type} [LinearOrder α] {a b : Value} {x y : α}
    (hab : ∀ op, applyComparisonOp other op a b = op.operation x y)
    (hba : ∀ op, applyComparisonOp other op b a = op.operation y x) (heq : x = y ↔ a = b)
    (hless : LexLess other a b ↔ ComparisonOp.lt.operation x y = true) : LawfulAt other a b := by
  rw [lawfulAt_iff, hab, hab, hba, hless]
  refine ⟨decide_eq_true_iff.trans heq, .rfl, ?_⟩
  rcases lt_trichotomy x y with h | rfl | h
  · simp [ComparisonOp.operation, h, h.ne, h.not_gt]
  · simp [ComparisonOp.operation]
  · simp [ComparisonOp.operation, h, h.ne', h.not_gt]

namespace NestedType

def zero : NestedType → Value
  | int32 => .int32 0
  | uint32 => .uint32 0
  | int64 => .int64 0
  | uint64 => .uint64 0
  | varchar => .varchar []
  | list _ => .list []
  | struct fields => .struct (ofFn fun i => (fields i).zero)

theorem holds_zero (t : NestedType) : t.Holds t.zero := by
  induction t with
  | list t ih => exact ⟨[], rfl, by simp⟩
  | struct fields ih => exact ⟨_, rfl, ih⟩
  | _ => exact ⟨_, rfl⟩

variable {fields : Fin n → NestedType}

theorem holds_update (hx : ∀ i, (fields i).Holds (xs i)) {k : Fin n} {v : Value}
    (hv : (fields k).Holds v) (i : Fin n) : (fields i).Holds (update xs k v i) := by
  by_cases hi : i = k
  · subst hi
    rwa [update_self]
  · rw [update_of_ne hi]
    exact hx i

theorem Single.field (h : (struct fields).Single) (k : Fin n) : (fields k).Single := by
  intro a b ha hb
  have hz := fun i => holds_zero (fields i)
  have heq := h _ _ ⟨_, rfl, holds_update hz ha⟩ ⟨_, rfl, holds_update hz hb⟩
  have := congrFun (ofFn_injective (Value.struct.inj heq)) k
  simpa using this

/-- At the only value of a type both operators hold. -/
theorem Single.refl {t : NestedType} (h : t.Single) {a : Value} (ha : t.Holds a) :
    (∀ op, applyComparisonOp other op a a = true) ∧ ¬ LexLess other a a := by
  induction t generalizing a with
  | int32 | uint32 | int64 | uint64 => exact absurd (h _ _ ⟨0, rfl⟩ ⟨1, rfl⟩) (by simp)
  | varchar => exact absurd (h _ _ ⟨[], rfl⟩ ⟨[0], rfl⟩) (by simp)
  | list t ih =>
    have hone : (list t).Holds (.list [t.zero]) := ⟨_, rfl, by simpa using holds_zero t⟩
    exact absurd (h _ _ ⟨[], rfl, by simp⟩ hone) (by simp)
  | struct fields ih =>
    obtain ⟨xs, rfl, hxs⟩ := ha
    constructor
    · intro op
      rw [applyComparisonOp, applyToChildren_ofFn]
      exact fun i => (ih i (h.field i) (hxs i)).1 op
    · rw [LexLess, lexLesses_ofFn]
      rintro ⟨i, -, hi⟩
      exact (ih i (h.field i) (hxs i)).2 hi

/-- Structs that differ in one field at most are compared by that field if the other fields have
one value. -/
theorem lawfulAt_struct {k : Fin n} (hrest : ∀ i ≠ k, (fields i).Single)
    (hx : ∀ i, (fields i).Holds (xs i)) (hy : ∀ i, (fields i).Holds (ys i)) :
    LawfulAt other (.struct (ofFn xs)) (.struct (ofFn ys)) ↔ LawfulAt other (xs k) (ys k) := by
  have hsame : ∀ i ≠ k, xs i = ys i := fun i hi => hrest i hi _ _ (hx i) (hy i)
  have happly : ∀ op (zs ws : Fin n → Value), (∀ i ≠ k, zs i = ws i) →
      (∀ i, (fields i).Holds (zs i)) → applyComparisonOp other op (.struct (ofFn zs))
        (.struct (ofFn ws)) = applyComparisonOp other op (zs k) (ws k) := by
    intro op zs ws hzw hz
    rw [Bool.eq_iff_iff, applyComparisonOp, applyToChildren_ofFn]
    refine ⟨fun h => h k, fun h i => ?_⟩
    by_cases hi : i = k
    · exact hi ▸ h
    · rw [← hzw i hi]
      exact ((hrest i hi).refl (hz i)).1 op
  have heq : Value.struct (ofFn xs) = .struct (ofFn ys) ↔ xs k = ys k := by
    rw [Value.struct.injEq, ofFn_inj]
    refine ⟨fun h => congrFun h k, fun h => funext fun i => ?_⟩
    by_cases hi : i = k
    · exact hi ▸ h
    · exact hsame i hi
  have hless : LexLess other (.struct (ofFn xs)) (.struct (ofFn ys)) ↔
      LexLess other (xs k) (ys k) := by
    rw [LexLess, lexLesses_ofFn]
    constructor
    · rintro ⟨i, -, hi⟩
      by_cases hik : i = k
      · exact hik ▸ hi
      · rw [← hsame i hik] at hi
        exact absurd hi ((hrest i hik).refl (hx i)).2
    · intro h
      exact ⟨k, fun j hj => hsame j hj.ne, h⟩
  rw [lawfulAt_iff, lawfulAt_iff, happly .eq xs ys hsame hx, happly .lt xs ys hsame hx, heq, hless,
    happly .lt ys xs (fun i hi => (hsame i hi).symm) hy]

theorem lawful_of_struct (h : ∀ a b, (struct fields).Holds a → (struct fields).Holds b →
      LawfulAt other a b) : ∃ k, (∀ i ≠ k, (fields i).Single) ∧
      ∀ a b, (fields k).Holds a → (fields k).Holds b → LawfulAt other a b := by
  let z := fun i => (fields i).zero
  have hz : ∀ i, (fields i).Holds (z i) := fun i => holds_zero (fields i)
  -- a struct is not less than itself, so one of its fields is not
  obtain ⟨k, hk⟩ : ∃ k, applyComparisonOp other .lt (z k) (z k) = false := by
    by_contra hall
    have hone := (h _ _ ⟨z, rfl, hz⟩ ⟨z, rfl, hz⟩).one
    have hlt : applyComparisonOp other .lt (.struct (ofFn z)) (.struct (ofFn z)) = true := by
      rw [applyComparisonOp, applyToChildren_ofFn]
      simpa using hall
    simp only [hlt, Bool.toNat_true] at hone
    omega
  have hrest : ∀ i ≠ k, (fields i).Single := by
    intro i hi a b ha hb
    have hless : ∀ u v, applyComparisonOp other .lt (.struct (ofFn (update z i u)))
        (.struct (ofFn (update z i v))) = false := by
      intro u v
      rw [← Bool.not_eq_true, applyComparisonOp, applyToChildren_ofFn]
      intro hall
      have hfield := hall k
      simp [hi.symm, hk] at hfield
    obtain ⟨heq, -, hone⟩ := h _ _ ⟨_, rfl, holds_update hz ha⟩ ⟨_, rfl, holds_update hz hb⟩
    rw [hless, hless] at hone
    have hsame := heq.mp (by simpa using hone)
    simpa using congrFun (ofFn_injective (Value.struct.inj hsame)) i
  refine ⟨k, hrest, fun a b ha hb => ?_⟩
  have hat := (lawfulAt_struct hrest (holds_update hz ha) (holds_update hz hb)).mp
    (h _ _ ⟨_, rfl, holds_update hz ha⟩ ⟨_, rfl, holds_update hz hb⟩)
  simpa using hat

end NestedType

/-- The operators are lawful on the values of a type exactly if the type is an integer or string
type or wraps one such field, and so on no list type. -/
theorem applyComparisonOp_lawful_iff (other : ComparisonOp → Value → Value → Bool)
    (t : NestedType) : (∀ a b, t.Holds a → t.Holds b → LawfulAt other a b) ↔ t.Lawful := by
  constructor
  · intro h
    induction t with
    | int32 => exact .int32
    | uint32 => exact .uint32
    | int64 => exact .int64
    | uint64 => exact .uint64
    | varchar => exact .varchar
    | list t ih =>
      have hone := (h _ _ ⟨[], rfl, by simp⟩ ⟨[], rfl, by simp⟩).one
      simp [applyComparisonOp, applyToChildren] at hone
    | struct fields ih =>
      obtain ⟨k, hrest, hk⟩ := NestedType.lawful_of_struct h
      exact .struct k (ih k hk) hrest
  · intro h
    induction h with
    | int32 | int64 =>
      rintro _ _ ⟨x, rfl⟩ ⟨y, rfl⟩
      exact lawfulAt_of_operation (fun _ => rfl) (fun _ => rfl)
        (by simp [BitVec.toInt_inj]) .rfl
    | uint32 | uint64 =>
      rintro _ _ ⟨x, rfl⟩ ⟨y, rfl⟩
      exact lawfulAt_of_operation (fun _ => rfl) (fun _ => rfl)
        (by simp [BitVec.toNat_inj]) .rfl
    | varchar =>
      rintro _ _ ⟨x, rfl⟩ ⟨y, rfl⟩
      have hinj : Function.Injective UInt8.toNat := fun _ _ => UInt8.toNat_inj.mp
      exact lawfulAt_of_operation
        (fun _ => rfl) (fun _ => rfl) (by simp [hinj.list_map.eq_iff]) .rfl
    | struct k hk hrest ih =>
      rintro _ _ ⟨xs, rfl, hx⟩ ⟨ys, rfl, hy⟩
      exact (NestedType.lawfulAt_struct hrest hx hy).mpr (ih _ _ (hx k) (hy k))

/-- A list equals a longer one, the empty list is less than itself, and two structs are not
comparable. -/
theorem applyComparisonOp_unlawful : let same := applyComparisonOp (fun _ _ _ => false) .eq
    let less := applyComparisonOp (fun _ _ _ => false) .lt
    let a := Value.struct [.int32 1, .int32 5]
    let b := Value.struct [.int32 2, .int32 3]
    same (.list [.int32 1]) (.list [.int32 1, .int32 2]) = true ∧
      less (.list []) (.list []) = true ∧
      less a b = false ∧ same a b = false ∧ less b a = false := by
  decide

end Neug.Execution
