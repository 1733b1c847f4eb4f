import Mathlib

/-! Lists sorted by a strict weak order: elements that compare as equal may stand in any order. -/
namespace Neug.Lib
open List Option

variable {α : Type} {r : α → α → Prop} {l l' : List α}

theorem not_rel_trans [IsStrictWeakOrder α r] {a b c : α} (hab : ¬ r a b) (hbc : ¬ r b c) :
    ¬ r a c := by
  intro hac
  have hba : ¬ r b a := fun h => hbc (IsTrans.trans _ _ _ h hac)
  have hcb : ¬ r c b := fun h => hab (IsTrans.trans _ _ _ hac h)
  exact (IsStrictWeakOrder.incomp_trans a b c ⟨hab, hba⟩ ⟨hbc, hcb⟩).1 hac

theorem isStrictWeakOrder_of_between (hasymm : ∀ a b, r a b → ¬ r b a)
    (hbetween : ∀ a b c, r a c → r a b ∨ r b c) : IsStrictWeakOrder α r where
  irrefl a h := hasymm a a h h
  trans a b c hab hbc := (hbetween a c b hab).resolve_right (hasymm b c hbc)
  incomp_trans a b c hab hbc := by
    constructor
    · intro hac
      exact (hbetween a b c hac).elim hab.1 hbc.1
    · intro hca
      exact (hbetween c b a hca).elim hbc.2 hab.2

def Ascending (r : α → α → Prop) (l : List α) : Prop := l.Pairwise fun a b => ¬ r b a

theorem Ascending.append (hl : Ascending r l) (hl' : Ascending r l')
    (h : ∀ a ∈ l, ∀ b ∈ l', ¬ r b a) : Ascending r (l ++ l') :=
  pairwise_append.mpr ⟨hl, hl', h⟩

theorem Ascending.map {β : Type} {f : β → α} {l : List β}
    (hl : Ascending (fun a b => r (f a) (f b)) l) : Ascending r (l.map f) :=
  pairwise_map.mpr hl

theorem ascending_insertionSort [DecidableRel r] [IsStrictWeakOrder α r] (l : List α) :
    Ascending r (l.insertionSort fun a b => ¬ r b a) := by
  have htotal : Std.Total fun a b => ¬ r b a := ⟨fun a b => by
    by_contra! h
    exact irrefl a (IsTrans.trans _ _ _ h.2 h.1)⟩
  have htrans : IsTrans α fun a b => ¬ r b a := ⟨fun a b c hab hbc => not_rel_trans hbc hab⟩
  exact pairwise_insertionSort _ l

theorem exists_ascending [IsStrictWeakOrder α r] (l : List α) :
    ∃ l', l'.Perm l ∧ Ascending r l' := by
  classical
  exact ⟨_, perm_insertionSort _ l, ascending_insertionSort l⟩

theorem Ascending.not_rel_getElem [IsStrictWeakOrder α r] (hl : Ascending r l) {i j : ℕ}
    (hij : i ≤ j) (hj : j < l.length) : ¬ r l[j] l[i] := by
  rcases hij.lt_or_eq with hlt | rfl
  · exact pairwise_iff_getElem.mp hl i j (hlt.trans hj) hj hlt
  · exact irrefl _

/-- Two sorted arrangements of the same elements agree in every position, up to ties. -/
theorem Ascending.not_rel_of_perm [IsStrictWeakOrder α r] (hl : Ascending r l)
    (hl' : Ascending r l') (hperm : l.Perm l') {k : ℕ} (hk : k < l.length) (hk' : k < l'.length) :
    ¬ r l[k] l'[k] := by
  classical
  intro hrel
  let low : α → Bool := fun x => decide (¬ r l[k] x)
  have hmany : k + 1 ≤ l.countP low := by
    have htake : (l.take (k + 1)).countP low = k + 1 := by
      rw [countP_eq_length.mpr, length_take, min_eq_left hk]
      intro x hx
      obtain ⟨i, hi, rfl⟩ := mem_take_iff_getElem.mp hx
      exact decide_eq_true (hl.not_rel_getElem (by omega) hk)
    rw [← take_append_drop (k + 1) l, countP_append]
    omega
  have hfew : l'.countP low ≤ k := by
    have hdrop : (l'.drop k).countP low = 0 := by
      rw [countP_eq_zero]
      intro x hx hlow
      obtain ⟨i, hi, rfl⟩ := mem_drop_iff_getElem.mp hx
      have hlater := hl'.not_rel_getElem (show k ≤ k + i by omega) (by omega)
      exact not_rel_trans (of_decide_eq_true hlow) hlater hrel
    rw [← take_append_drop k l', countP_append, hdrop]
    exact (countP_le_length).trans (by simp)
  have hcount := hperm.countP_eq low
  omega

def least (r : α → α → Prop) [DecidableRel r] (l : List α) (x : α) : Bool :=
  l.all fun y => !decide (r y x)

theorem least_iff [DecidableRel r] {x : α} : least r l x = true ↔ ∀ y ∈ l, ¬ r y x := by
  simp [least]

theorem Ascending.take_least_iff [DecidableRel r] [IsStrictWeakOrder α r] (hl : Ascending r l)
    {m : ℕ} (hm : m ≤ l.length) :
    (∀ x ∈ l.take m, least r l x = true) ↔ m ≤ l.countP (least r l) := by
  constructor
  · intro hall
    rw [← take_append_drop m l, countP_append, take_append_drop,
      countP_eq_length.mpr hall, length_take]
    omega
  · intro hcount x hx
    obtain ⟨j, hj, rfl⟩ := mem_take_iff_getElem.mp hx
    by_contra hnot
    have hnone : (l.drop j).countP (least r l) = 0 := by
      rw [countP_eq_zero]
      intro y hy hleast
      obtain ⟨i, hi, rfl⟩ := mem_drop_iff_getElem.mp hy
      apply hnot
      rw [least_iff] at hleast ⊢
      intro z hz
      exact not_rel_trans (hleast z hz) (hl.not_rel_getElem (by omega) (by omega))
    have hfew : l.countP (least r l) ≤ j := by
      rw [← take_append_drop j l, countP_append, take_append_drop, hnone]
      exact (countP_le_length).trans (by simp)
    omega

/-- When a slice of a sorted list can be moved `low` places up. -/
theorem Ascending.shifted_slice_iff [DecidableRel r] [IsStrictWeakOrder α r]
    (hl : Ascending r l) {low m : ℕ} (hlow : 0 < low) (hlm : low ≤ m) (hm : m ≤ l.length) :
    (∃ l', l'.Perm l ∧ Ascending r l' ∧ l.take (m - low) = (l'.take m).drop low) ↔
      low = m ∨ m ≤ l.countP (least r l) := by
  rw [← hl.take_least_iff hm]
  constructor
  · rintro ⟨l', hperm, hl', heq⟩
    rw [or_iff_not_imp_left]
    intro hne x hx
    have hlen := hperm.length_eq
    have hstep : ∀ k, k + low < m → (hk : k + low < l.length) → ¬ r l[k] l[k + low] := by
      intro k hkm hk
      have hsame : l[k] = l'[k + low] := by
        have hget := congrArg (fun s => s[k]?) heq
        simp only [getElem?_take, getElem?_drop] at hget
        rw [if_pos (by omega), if_pos (by omega), add_comm low k,
          getElem?_eq_getElem (by omega), getElem?_eq_getElem (by omega)] at hget
        exact some.inj hget
      rw [hsame]
      exact hl'.not_rel_of_perm hl hperm (by omega) hk
    have hfirst : ∀ j, (hj : j < l.length) → j < m → ¬ r (l.get ⟨0, by omega⟩) l[j] := by
      intro j
      induction j using Nat.strong_induction_on with
      | _ j ih =>
        intro hj hjm
        by_cases hjl : j < low
        · have hup : ¬ r l[0] l[0 + low] := hstep 0 (by omega) (by omega)
          exact not_rel_trans hup (hl.not_rel_getElem (by omega) (by omega))
        · have hback := ih (j - low) (by omega) (by omega) (by omega)
          have hup := hstep (j - low) (by omega) (by omega)
          simp only [Nat.sub_add_cancel (Nat.le_of_not_lt hjl)] at hup
          exact not_rel_trans hback hup
    obtain ⟨j, hj, rfl⟩ := mem_take_iff_getElem.mp hx
    rw [least_iff]
    intro y hy
    obtain ⟨i, hi, rfl⟩ := mem_iff_getElem.mp hy
    have hzero : ¬ r l[i] l[0] := hl.not_rel_getElem (Nat.zero_le i) hi
    exact not_rel_trans hzero (hfirst j (by omega) (by omega))
  · rintro (rfl | hall)
    · exact ⟨l, .refl l, hl, by simp⟩
    · let a := l.take (m - low)
      let b := (l.drop (m - low)).take low
      let c := l.drop m
      have hsplit : l = a ++ b ++ c := by
        have hdrop : l.drop m = (l.drop (m - low)).drop low := by
          rw [drop_drop, Nat.sub_add_cancel hlm]
        rw [show c = (l.drop (m - low)).drop low from hdrop, append_assoc,
          take_append_drop, take_append_drop]
      have hfront : a ++ b = l.take m := by
        rw [← Nat.sub_add_cancel hlm, take_add]
      have hblen : b.length = low := by
        simp only [b, length_take, length_drop]
        omega
      have hmin : ∀ x ∈ b ++ a, ∀ y ∈ l, ¬ r y x := by
        intro x hx
        apply least_iff.mp (hall x _)
        rw [← hfront, mem_append]
        exact (mem_append.mp hx).symm
      have hmem : ∀ x ∈ b ++ a, x ∈ l := by
        intro x hx
        rw [hsplit]
        exact mem_append_left _ (mem_append.mpr (mem_append.mp hx).symm)
      refine ⟨b ++ a ++ c, ?_, ?_, ?_⟩
      · rw [hsplit]
        exact (perm_append_comm).append_right c
      · apply Ascending.append
        · apply List.Pairwise.imp_of_mem
          · intro x y hx hy _
            exact hmin x hx y (hmem y hy)
          · exact pairwise_of_forall fun _ _ => trivial
        · exact List.Pairwise.sublist (drop_sublist m l) hl
        · intro x hx y hy
          exact hmin x hx y (mem_of_mem_drop hy)
      · have halen : a.length = m - low := by
          simp only [a, length_take]
          omega
        have hlen : (b ++ a).length = m := by
          rw [length_append]
          omega
        have htake : (b ++ a ++ c).take m = b ++ a := by
          rw [← hlen, take_left]
        have hdrop : (b ++ a).drop low = a := by
          rw [← hblen, drop_left]
        rw [htake, hdrop]

end Neug.Lib
