import Neug.Lib.WeakOrder

/-! `GeneralComparer`, which compares the rows of a context for `ORDER BY`. -/
namespace Neug.Execution
open Neug.Lib List

/-- `Value::operator<`, given the comparison of values that are not null. Values of two types are
never less. -/
def valueLess {α : Type} (less : α → α → Bool) : Option α → Option α → Bool
  | some x, some y => less x y
  | _, _ => false

/-- A key over a context of `n` rows: the elements of its column and its direction. -/
structure SortKey (α : Type) (n : ℕ) where
  elem : Fin n → Option α
  asc : Bool

variable {α : Type} (less : α → α → Bool) {n : ℕ}

/-- `GeneralComparer::operator()`. -/
def generalComparer : List (SortKey α n) → Fin n → Fin n → Bool
  | [], lhs, rhs => lhs < rhs
  | k :: keys, lhs, rhs =>
    if valueLess less (k.elem lhs) (k.elem rhs) then k.asc
    else if valueLess less (k.elem rhs) (k.elem lhs) then !k.asc
    else generalComparer keys lhs rhs

/-- The values of a column are ordered, and null does not stand beside two of them that differ. -/
structure Orderly (S : Set (Option α)) : Prop where
  asymm : ∀ x y, some x ∈ S → some y ∈ S → less x y = true → less y x = false
  between : ∀ x y z, some x ∈ S → some y ∈ S → some z ∈ S → less x z = true →
    less x y = true ∨ less y z = true
  null : none ∈ S → ∀ x y, some x ∈ S → some y ∈ S → less x y = false

variable {less} {S : Set (Option α)}

theorem orderly_iff : Orderly less S ↔
    (∀ x ∈ S, ∀ y ∈ S, valueLess less x y = true → valueLess less y x = false) ∧
      ∀ x ∈ S, ∀ y ∈ S, ∀ z ∈ S, valueLess less x z = true →
        valueLess less x y = true ∨ valueLess less y z = true := by
  constructor
  · intro h
    constructor
    · rintro (_ | x) hx (_ | y) hy hlt
      · rfl
      · rfl
      · rfl
      · exact h.asymm x y hx hy hlt
    · rintro (_ | x) hx (_ | y) hy (_ | z) hz hlt
      case some.some.some => exact h.between x y z hx hy hz hlt
      case some.none.some => exact absurd hlt (by simp [valueLess, h.null hy x z hx hz])
      all_goals exact absurd hlt Bool.false_ne_true
  · rintro ⟨hasymm, hbetween⟩
    refine ⟨fun x y hx hy => hasymm _ hx _ hy, fun x y z hx hy hz => hbetween _ hx _ hy _ hz, ?_⟩
    intro hnull x y hx hy
    by_contra hlt
    rcases hbetween _ hx _ hnull _ hy (Bool.eq_true_of_not_eq_false hlt) with h | h
    · cases h
    · cases h

section

variable {keys : List (SortKey α n)}

theorem generalComparer_asymm
    (hasymm : ∀ k ∈ keys, ∀ i j, valueLess less (k.elem i) (k.elem j) = true →
      valueLess less (k.elem j) (k.elem i) = false) {i j : Fin n}
    (hij : generalComparer less keys i j = true) : ¬ generalComparer less keys j i = true := by
  induction keys with
  | nil =>
    simp only [generalComparer, decide_eq_true_eq] at hij ⊢
    omega
  | cons k keys ih =>
    have hk := hasymm k mem_cons_self
    have ih := ih fun k' hk' => hasymm k' (mem_cons_of_mem k hk')
    simp only [generalComparer] at hij ⊢
    grind

theorem generalComparer_between
    (hasymm : ∀ k ∈ keys, ∀ i j, valueLess less (k.elem i) (k.elem j) = true →
      valueLess less (k.elem j) (k.elem i) = false)
    (hbetween : ∀ k ∈ keys, ∀ i j l, valueLess less (k.elem i) (k.elem l) = true →
      valueLess less (k.elem i) (k.elem j) = true ∨ valueLess less (k.elem j) (k.elem l) = true)
    {i j l : Fin n} (hil : generalComparer less keys i l = true) :
    generalComparer less keys i j = true ∨ generalComparer less keys j l = true := by
  induction keys with
  | nil =>
    simp only [generalComparer, decide_eq_true_eq] at hil ⊢
    omega
  | cons k keys ih =>
    have hk := hasymm k mem_cons_self
    have hk' := hbetween k mem_cons_self
    have ih := ih (fun k' hk' => hasymm k' (mem_cons_of_mem k hk'))
      fun k' hk' => hbetween k' (mem_cons_of_mem k hk')
    simp only [generalComparer] at hil ⊢
    grind

end

theorem orderly_of_isStrictWeakOrder (h : ∀ (n : ℕ) (k : SortKey α n), (∀ i, k.elem i ∈ S) →
      IsStrictWeakOrder (Fin n) fun i j => generalComparer less [k] i j = true) :
    Orderly less S := by
  rw [orderly_iff]
  constructor
  · intro x hx y hy hlt
    by_contra hgt
    have hrows := h 2 ⟨![x, y], true⟩ (by simp [Fin.forall_fin_two, hx, hy])
    have hloop := hrows.trans 0 1 0 (by simp [generalComparer, hlt]) (by simp [generalComparer, hgt])
    exact hrows.irrefl 0 hloop
  · -- with the last of the three values in front, every row comes before another one
    intro x hx y hy z hz hxz
    by_contra! hnone
    have hrows := h 3 ⟨![z, y, x], true⟩ (by simp [Fin.forall_fin_succ, hx, hy, hz])
    have hzx := hrows.trans 0 1 2 (by simp [generalComparer, hnone.2])
      (by simp [generalComparer, hnone.1])
    exact hrows.irrefl 0 (hrows.trans 0 2 0 hzx (by simp [generalComparer, hxz]))

end Neug.Execution
