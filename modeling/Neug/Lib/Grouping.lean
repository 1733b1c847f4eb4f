import Mathlib

/-! Positions split into classes by a key, in one pass that remembers the keys it has met. -/
namespace Neug.Lib
open List Option

variable {κ ι : Type}

/-- The groups hold every position below `n` once, two positions share a group exactly if their
keys agree, and every group has one of its own positions as its representative. -/
structure IsGrouping (key : ℕ → κ) (n : ℕ) (offsets : List ℕ) (groups : List (List ℕ)) : Prop where
  flat : groups.flatten.Perm (List.range n)
  same : ∀ i j, i < n → j < n → ((∃ g ∈ groups, i ∈ g ∧ j ∈ g) ↔ key i = key j)
  heads : List.Forall₂ (· ∈ ·) offsets groups

structure IsDedup (key : ℕ → κ) (n : ℕ) (offsets : List ℕ) : Prop where
  lt : ∀ o ∈ offsets, o < n
  nodup : offsets.Nodup
  unique : ∀ i < n, ∃! o, o ∈ offsets ∧ key o = key i

def SameKernel (key : ℕ → κ) (tuple : ℕ → ι) (n : ℕ) : Prop :=
  ∀ i j, i < n → j < n → (key i = key j ↔ tuple i = tuple j)

theorem IsGrouping.iff_sameKernel {key : ℕ → κ} {tuple : ℕ → ι} {n : ℕ} {offsets : List ℕ}
    {groups : List (List ℕ)} (h : IsGrouping key n offsets groups) :
    IsGrouping tuple n offsets groups ↔ SameKernel key tuple n := by
  constructor
  · intro ht i j hi hj
    rw [← h.same i j hi hj, ht.same i j hi hj]
  · intro hk
    exact ⟨h.flat, fun i j hi hj => (h.same i j hi hj).trans (hk i j hi hj), h.heads⟩

theorem IsDedup.of_sameKernel {key : ℕ → κ} {tuple : ℕ → ι} {n : ℕ} {offsets : List ℕ}
    (h : IsDedup key n offsets) (hk : SameKernel key tuple n) : IsDedup tuple n offsets := by
  refine ⟨h.lt, h.nodup, fun i hi => ?_⟩
  obtain ⟨o, ⟨ho, hkey⟩, huniq⟩ := h.unique i hi
  refine ⟨o, ⟨ho, (hk o i (h.lt o ho) hi).mp hkey⟩, fun o' ho' => ?_⟩
  exact huniq o' ⟨ho'.1, (hk o' i (h.lt o' ho'.1) hi).mpr ho'.2⟩

variable [DecidableEq κ] (key : ℕ → κ)

def dedupLoop (n : ℕ) : List κ × List ℕ :=
  (List.range n).foldl (fun s i => if key i ∈ s.1 then s else (s.1 ++ [key i], s.2 ++ [i])) ([], [])

/-- What a grouping pass carries: the key of every group, the position that opened it and its
positions so far. -/
structure GroupState (κ : Type) where
  roots : List κ
  offsets : List ℕ
  groups : List (List ℕ)

def groupStep (s : GroupState κ) (i : ℕ) : GroupState κ :=
  match s.roots.idxOf? (key i) with
  | some k => { s with groups := s.groups.modify k (· ++ [i]) }
  | none =>
    { roots := s.roots ++ [key i], offsets := s.offsets ++ [i], groups := s.groups ++ [[i]] }

def groupLoop (n : ℕ) : GroupState κ := (List.range n).foldl (groupStep key) ⟨[], [], []⟩
def firsts (n : ℕ) : List ℕ := (List.range n).filter fun i => ∀ j < i, key j ≠ key i
def classOf (n : ℕ) (k : κ) : List ℕ := (List.range n).filter fun j => key j = k

variable {key}

theorem mem_firsts {n i : ℕ} : i ∈ firsts key n ↔ i < n ∧ ∀ j < i, key j ≠ key i := by
  simp [firsts]

theorem mem_classOf {n j : ℕ} {k : κ} : j ∈ classOf key n k ↔ j < n ∧ key j = k := by
  simp [classOf]

theorem exists_first {n i : ℕ} (hi : i < n) : ∃ o ∈ firsts key n, key o = key i := by
  have hex : ∃ j, key j = key i := ⟨i, rfl⟩
  have hle : Nat.find hex ≤ i := Nat.find_min' hex rfl
  refine ⟨Nat.find hex, mem_firsts.mpr ⟨by omega, fun j hj h => ?_⟩, Nat.find_spec hex⟩
  exact Nat.find_min hex hj (h.trans (Nat.find_spec hex))

theorem firsts_injOn {n i j : ℕ} (hi : i ∈ firsts key n) (hj : j ∈ firsts key n)
    (h : key i = key j) : i = j := by
  rcases lt_trichotomy i j with hlt | rfl | hlt
  · exact absurd h ((mem_firsts.mp hj).2 i hlt)
  · rfl
  · exact absurd h.symm ((mem_firsts.mp hi).2 j hlt)

theorem nodup_firsts (n : ℕ) : (firsts key n).Nodup := nodup_range.filter _

theorem mem_map_firsts {n : ℕ} {k : κ} : k ∈ (firsts key n).map key ↔ ∃ j < n, key j = k := by
  rw [List.mem_map]
  constructor
  · intro h
    obtain ⟨o, ho, rfl⟩ := h
    exact ⟨o, (mem_firsts.mp ho).1, rfl⟩
  · intro h
    obtain ⟨j, hj, rfl⟩ := h
    exact exists_first hj

theorem firsts_succ (n : ℕ) : firsts key (n + 1) =
    firsts key n ++ if key n ∈ (firsts key n).map key then [] else [n] := by
  have hnew : key n ∈ (firsts key n).map key ↔ ¬ ∀ j < n, key j ≠ key n := by
    rw [mem_map_firsts]
    push Not
    rfl
  rw [firsts, range_succ, filter_append]
  congr 1
  by_cases h : key n ∈ (firsts key n).map key
  · simp [h, hnew.mp h]
  · rw [if_neg h]
    simpa using not_not.mp (mt hnew.mpr h)

theorem firsts_const (k : κ) (n : ℕ) : firsts (fun _ => k) (n + 1) = [0] := by
  induction n with
  | zero => simp [firsts]
  | succ n ih =>
    rw [firsts_succ, ih]
    simp

theorem classOf_succ (n : ℕ) (k : κ) :
    classOf key (n + 1) k = classOf key n k ++ if key n = k then [n] else [] := by
  rw [classOf, range_succ, filter_append, ← classOf]
  by_cases h : key n = k <;> simp [h]

theorem dedupLoop_eq (n : ℕ) : dedupLoop key n = ((firsts key n).map key, firsts key n) := by
  induction n with
  | zero => rfl
  | succ n ih =>
    rw [dedupLoop, range_succ, foldl_append, ← dedupLoop, ih, firsts_succ]
    by_cases h : key n ∈ (firsts key n).map key <;> simp [h]

theorem isDedup_firsts (n : ℕ) : IsDedup key n (firsts key n) where
  lt o ho := (mem_firsts.mp ho).1
  nodup := nodup_firsts n
  unique i hi := by
    obtain ⟨o, ho, hkey⟩ : ∃ o ∈ firsts key n, key o = key i := exists_first hi
    exact ⟨o, ⟨ho, hkey⟩, fun o' ho' => firsts_injOn ho'.1 ho (ho'.2.trans hkey.symm)⟩

theorem isDedup_dedupLoop (n : ℕ) : IsDedup key n (dedupLoop key n).2 := by
  rw [dedupLoop_eq]
  exact isDedup_firsts n

theorem modify_classes {n k : ℕ} (hk : ((firsts key n).map key).idxOf? (key n) = some k) :
    ((firsts key n).map fun o => classOf key n (key o)).modify k (· ++ [n]) =
      (firsts key n).map fun o => classOf key (n + 1) (key o) := by
  obtain ⟨hlt, hroot, -⟩ := idxOf?_eq_some_iff.mp hk
  rw [length_map] at hlt
  rw [getElem_map] at hroot
  apply ext_getElem?
  intro m
  rw [getElem?_modify, getElem?_map, getElem?_map]
  rcases lt_or_ge m (firsts key n).length with hm | hm
  · rw [getElem?_eq_getElem hm]
    by_cases hmk : k = m
    · subst hmk
      simp [classOf_succ, hroot]
    · have hother : key n ≠ key (firsts key n)[m] := by
        intro h
        have heq := firsts_injOn (getElem_mem hlt) (getElem_mem hm) (hroot.trans h)
        exact hmk ((nodup_firsts n).getElem_inj_iff.mp heq)
      simp [classOf_succ, hmk, hother]
  · simp [getElem?_eq_none hm]

theorem groupLoop_eq (n : ℕ) : groupLoop key n =
    ⟨(firsts key n).map key, firsts key n, (firsts key n).map fun o => classOf key n (key o)⟩ := by
  induction n with
  | zero => rfl
  | succ n ih =>
    have hrun : groupLoop key (n + 1) = groupStep key (groupLoop key n) n := by
      rw [groupLoop, range_succ, foldl_append]
      rfl
    rw [hrun, ih, firsts_succ, groupStep]
    by_cases hseen : key n ∈ (firsts key n).map key
    · obtain ⟨k, hk⟩ : ∃ k, ((firsts key n).map key).idxOf? (key n) = some k :=
        isSome_iff_exists.mp (by simpa using hseen)
      simp only [hk, if_pos hseen, append_nil, modify_classes hk]
    · have hnone : ((firsts key n).map key).idxOf? (key n) = none := idxOf?_eq_none_iff.mpr hseen
      have hold : ∀ o ∈ firsts key n, classOf key (n + 1) (key o) = classOf key n (key o) := by
        intro o ho
        have hne : key n ≠ key o := fun h => hseen (h ▸ mem_map_of_mem ho)
        rw [classOf_succ, if_neg hne, append_nil]
      have hnew : classOf key (n + 1) (key n) = [n] := by
        have hempty : classOf key n (key n) = [] := by
          rw [eq_nil_iff_forall_not_mem]
          intro j hj
          exact hseen (mem_map_firsts.mpr ⟨j, mem_classOf.mp hj⟩)
        rw [classOf_succ, if_pos rfl, hempty, nil_append]
      simp only [hnone, if_neg hseen, map_append, map_cons, map_nil, hnew, map_congr_left hold]

theorem perm_flatten_classes (n : ℕ) :
    ((firsts key n).map fun o => classOf key n (key o)).flatten.Perm (range n) := by
  rw [perm_ext_iff_of_nodup ?_ nodup_range]
  · intro i
    simp only [mem_flatten, List.mem_map, exists_exists_and_eq_and, mem_classOf, mem_range]
    constructor
    · intro h
      obtain ⟨-, -, hi, -⟩ := h
      exact hi
    · intro hi
      obtain ⟨o, ho, hkey⟩ : ∃ o ∈ firsts key n, key o = key i := exists_first hi
      exact ⟨o, ho, hi, hkey.symm⟩
  · rw [nodup_flatten]
    constructor
    · intro g hg
      obtain ⟨o, -, rfl⟩ := mem_map.mp hg
      exact nodup_range.filter _
    · rw [pairwise_map]
      apply (nodup_firsts n).imp_of_mem
      intro o o' ho ho' hne i hi hi'
      have hkey : key o = key o' := (mem_classOf.mp hi).2.symm.trans (mem_classOf.mp hi').2
      exact hne (firsts_injOn ho ho' hkey)

theorem isGrouping_groupLoop (n : ℕ) :
    IsGrouping key n (groupLoop key n).offsets (groupLoop key n).groups := by
  rw [groupLoop_eq]
  refine ⟨perm_flatten_classes n, fun i j hi hj => ?_, ?_⟩
  · simp only [List.mem_map, exists_exists_and_eq_and, mem_classOf]
    constructor
    · intro h
      obtain ⟨o, -, ⟨-, hio⟩, -, hjo⟩ := h
      exact hio.trans hjo.symm
    · intro h
      obtain ⟨o, ho, hkey⟩ : ∃ o ∈ firsts key n, key o = key i := exists_first hi
      exact ⟨o, ho, ⟨hi, hkey.symm⟩, hj, h.symm.trans hkey.symm⟩
  · rw [forall₂_map_right_iff, forall₂_same]
    intro o ho
    exact mem_classOf.mpr ⟨(mem_firsts.mp ho).1, rfl⟩

section

variable {κ' : Type} [DecidableEq κ'] {key' : ℕ → κ'} {n : ℕ} (h : SameKernel key key' n)
include h

theorem firsts_congr : firsts key n = firsts key' n := by
  apply filter_congr
  intro i hi
  have hlt : i < n := mem_range.mp hi
  apply decide_eq_decide.mpr
  apply forall₂_congr
  intro j hj
  rw [Ne, h j i (by omega) hlt]

theorem classOf_congr {o : ℕ} (ho : o < n) : classOf key n (key o) = classOf key' n (key' o) := by
  apply filter_congr
  intro j hj
  exact decide_eq_decide.mpr (h j o (mem_range.mp hj) ho)

/-- Keys that tell the same positions apart give the same groups. -/
theorem groupLoop_congr : (groupLoop key n).offsets = (groupLoop key' n).offsets ∧
    (groupLoop key n).groups = (groupLoop key' n).groups := by
  rw [groupLoop_eq, groupLoop_eq, firsts_congr h]
  refine ⟨rfl, map_congr_left fun o ho => ?_⟩
  exact classOf_congr h (mem_firsts.mp ho).1

end

end Neug.Lib
