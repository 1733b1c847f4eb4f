import Mathlib

/-! Rows collected for the positions of an input in several passes. Every position is marked when a
pass finds something for it, and the positions without a mark get one blank row at the end. -/
namespace Neug.Lib
open List Option

variable {β γ : Type}

def padded (i : ℕ) (found : List β) : List (ℕ × Option β) :=
  if found.isEmpty then [(i, none)] else found.map fun b => (i, some b)

def plain (i : ℕ) (found : List β) : List (ℕ × Option β) := found.map fun b => (i, some b)

/-- What a pass does at a position: `none` if there is nothing to search for. -/
abbrev Visit (β : Type) := ℕ × Option (List β)

def found (visits : List (Visit β)) (i : ℕ) : List β :=
  (visits.filter fun x => x.1 = i).flatMap fun x => x.2.getD []

def emitted (visits : List (Visit β)) : List (ℕ × Option β) :=
  visits.flatMap fun x => plain x.1 (x.2.getD [])

structure Marks (β : Type) where
  rows : List (ℕ × Option β)
  matched : ℕ → Bool

namespace Marks

def start : Marks β := ⟨[], fun _ => false⟩

/-- The rows of what is found, or one blank row at the first visit of a position that has nothing
to search for. -/
def visit (s : Marks β) : Visit β → Marks β
  | (i, some bs) =>
    ⟨s.rows ++ plain i bs, fun j => if j = i then s.matched j || !bs.isEmpty else s.matched j⟩
  | (i, none) =>
    ⟨s.rows ++ if s.matched i then [] else [(i, none)],
      fun j => if j = i then true else s.matched j⟩

def finish (s : Marks β) (n : ℕ) : List (ℕ × Option β) :=
  s.rows ++ ((List.range n).filter fun i => !s.matched i).map fun i => (i, none)

end Marks

def fiber (rows : List (ℕ × γ)) (i : ℕ) : List (ℕ × γ) := rows.filter fun x => x.1 = i

theorem fiber_append (rows rows' : List (ℕ × γ)) (i : ℕ) :
    fiber (rows ++ rows') i = fiber rows i ++ fiber rows' i := filter_append ..

variable {i : ℕ} {visits : List (Visit β)} {rows : List (ℕ × γ)}

theorem perm_of_fibers [DecidableEq γ] {rows' : List (ℕ × γ)}
    (h : ∀ i, (fiber rows i).Perm (fiber rows' i)) : rows.Perm rows' := by
  rw [perm_iff_count]
  intro x
  have hcount := (h x.1).count_eq x
  rwa [fiber, fiber, count_filter (by simp), count_filter (by simp)] at hcount

theorem fiber_of_eq (h : ∀ x ∈ rows, x.1 = i) : fiber rows i = rows := by
  apply filter_eq_self.mpr
  intro x hx
  simpa using h x hx

theorem fiber_of_ne {j : ℕ} (h : ∀ x ∈ rows, x.1 = j) (hij : j ≠ i) : fiber rows i = [] := by
  apply filter_eq_nil_iff.mpr
  intro x hx
  simpa [h x hx] using hij

theorem fst_of_mem_plain {bs : List β} : ∀ x ∈ plain i bs, x.1 = i := by
  intro x hx
  obtain ⟨b, -, rfl⟩ := mem_map.mp hx
  rfl

theorem fst_of_mem_padded {bs : List β} : ∀ x ∈ padded i bs, x.1 = i := by
  intro x hx
  unfold padded at hx
  split_ifs at hx
  · rw [mem_singleton.mp hx]
  · exact fst_of_mem_plain x hx

theorem fiber_flatMap_range {f : ℕ → List (ℕ × γ)} (hf : ∀ i, ∀ x ∈ f i, x.1 = i) (n i : ℕ) :
    fiber ((range n).flatMap f) i = if i < n then f i else [] := by
  induction n with
  | zero => rfl
  | succ n ih =>
    rw [range_succ, flatMap_append, fiber_append, ih, flatMap_singleton]
    rcases lt_trichotomy i n with hlt | rfl | hgt
    · rw [fiber_of_ne (hf n) (by omega), if_pos hlt, if_pos (by omega), append_nil]
    · rw [fiber_of_eq (hf i), if_neg (lt_irrefl i), if_pos (by omega), nil_append]
    · rw [fiber_of_ne (hf n) (by omega), if_neg (by omega), if_neg (by omega), append_nil]

theorem plain_append (i : ℕ) (bs bs' : List β) : plain i (bs ++ bs') = plain i bs ++ plain i bs' :=
  map_append ..

theorem found_append (visits visits' : List (Visit β)) (i : ℕ) :
    found (visits ++ visits') i = found visits i ++ found visits' i := by
  simp [found]

theorem found_singleton_self (i : ℕ) (bs : Option (List β)) : found [(i, bs)] i = bs.getD [] := by
  simp [found]

theorem found_singleton_ne {j : ℕ} (bs : Option (List β)) (h : j ≠ i) : found [(j, bs)] i = [] := by
  simp [found, h]

theorem found_eq_nil (h : ∀ x ∈ visits, x.1 = i → x.2.getD [] = []) : found visits i = [] := by
  rw [found, flatMap_eq_nil_iff]
  intro x hx
  rw [mem_filter, decide_eq_true_eq] at hx
  exact h x hx.1 hx.2

theorem found_of_ge {n : ℕ} (hlt : ∀ x ∈ visits, x.1 < n) (hi : n ≤ i) : found visits i = [] := by
  apply found_eq_nil
  intro x hx hxi
  have hx := hlt x hx
  omega

theorem found_passes {ι α : Type} (passes : List ι) (f : ι → α → Option (List β)) (input : List α)
    (k i : ℕ) : found (passes.flatMap fun d => (input.zipIdx k).map fun x => (x.2, f d x.1)) i =
      if k ≤ i then passes.flatMap fun d => (input[i - k]?.bind (f d)).getD [] else [] := by
  have hpass : ∀ d, found ((input.zipIdx k).map fun x => (x.2, f d x.1)) i =
      if k ≤ i then (input[i - k]?.bind (f d)).getD [] else [] := by
    intro d
    induction input generalizing k with
    | nil => simp [found]
    | cons a input ih =>
      have hcons : found (((a :: input).zipIdx k).map fun x => (x.2, f d x.1)) i =
          found [(k, f d a)] i ++ found ((input.zipIdx (k + 1)).map fun x => (x.2, f d x.1)) i :=
        found_append [(k, f d a)] _ i
      rw [hcons, ih]
      rcases lt_trichotomy i k with hlt | rfl | hgt
      · rw [found_singleton_ne _ (by omega), if_neg (by omega), if_neg (by omega)]
        rfl
      · rw [found_singleton_self]
        simp
      · have hsub : i - k = (i - (k + 1)) + 1 := by omega
        rw [found_singleton_ne _ (by omega), if_pos (by omega), if_pos (by omega), hsub,
          getElem?_cons_succ, nil_append]
  induction passes with
  | nil => simp [found]
  | cons d passes ih =>
    rw [flatMap_cons, found_append, hpass, ih]
    split_ifs <;> simp

theorem fiber_emitted (visits : List (Visit β)) (i : ℕ) :
    fiber (emitted visits) i = plain i (found visits i) := by
  induction visits with
  | nil => rfl
  | cons x visits ih =>
    have hcons : found (x :: visits) i = found [x] i ++ found visits i := found_append [x] visits i
    have hemit : emitted (x :: visits) = plain x.1 (x.2.getD []) ++ emitted visits := rfl
    rw [hemit, hcons, fiber_append, ih, plain_append]
    by_cases h : x.1 = i
    · subst h
      rw [fiber_of_eq fst_of_mem_plain, show found [x] x.1 = _ from found_singleton_self x.1 x.2]
    · rw [fiber_of_ne fst_of_mem_plain h, show found [x] i = _ from found_singleton_ne x.2 h]
      rfl

theorem zipIdx_flatMap {α : Type} (input : List α) (f : α × ℕ → List γ) : input.zipIdx.flatMap f =
      (range input.length).flatMap fun i => input[i]?.elim [] fun a => f (a, i) := by
  induction input using reverseRecOn with
  | nil => rfl
  | append_singleton input a ih =>
    have hold : ∀ i ∈ range input.length,
        ((input ++ [a])[i]?.elim [] fun a => f (a, i)) = input[i]?.elim [] fun a => f (a, i) := by
      intro i hi
      rw [getElem?_append_left (mem_range.mp hi)]
    rw [zipIdx_append, flatMap_append, ih, length_append, length_singleton,
      range_succ, flatMap_append, flatMap_congr hold]
    simp

namespace Marks

def run (visits : List (Visit β)) : Marks β := visits.foldl visit start

theorem run_append_singleton (visits : List (Visit β)) (x : Visit β) :
    run (visits ++ [x]) = (run visits).visit x := by
  rw [run, foldl_append]
  rfl

variable {i : ℕ}

theorem fiber_visit_ne (s : Marks β) {x : Visit β} (h : x.1 ≠ i) :
    fiber (s.visit x).rows i = fiber s.rows i ∧ (s.visit x).matched i = s.matched i := by
  obtain ⟨j, _ | bs⟩ := x
  · have hblank : fiber (if s.matched j then [] else [(j, (none : Option β))]) i = [] := by
      apply fiber_of_ne _ h
      intro x hx
      split_ifs at hx
      · cases hx
      · rw [mem_singleton.mp hx]
    exact ⟨by simp only [visit, fiber_append, hblank, append_nil], if_neg (Ne.symm h)⟩
  · refine ⟨?_, if_neg (Ne.symm h)⟩
    simp [visit, fiber_append, fiber_of_ne fst_of_mem_plain h]

/-- A position with nothing to search for has one blank row from its first visit on. -/
theorem fiber_run_of_none {visits : List (Visit β)} (h : ∀ x ∈ visits, x.1 = i → x.2 = none) :
    fiber (run visits).rows i = if (run visits).matched i then [(i, none)] else [] := by
  induction visits using reverseRecOn with
  | nil => rfl
  | append_singleton visits x ih =>
    specialize ih fun y hy => h y (mem_append_left _ hy)
    rw [run_append_singleton]
    by_cases hx : x.1 = i
    · obtain ⟨j, bs⟩ := x
      obtain rfl : j = i := hx
      obtain rfl : bs = none := h (j, bs) (by simp) rfl
      simp only [visit, fiber_append, ih]
      cases (run visits).matched j <;> simp [fiber]
    · rw [(fiber_visit_ne _ hx).1, (fiber_visit_ne _ hx).2, ih]

/-- A position that is searched has what was found for it, and a mark if this is something. -/
theorem fiber_run_of_some {visits : List (Visit β)} (h : ∀ x ∈ visits, x.1 = i → x.2 ≠ none) :
    fiber (run visits).rows i = plain i (found visits i) ∧
      (run visits).matched i = !(found visits i).isEmpty := by
  induction visits using reverseRecOn with
  | nil => exact ⟨rfl, rfl⟩
  | append_singleton visits x ih =>
    obtain ⟨hrows, hmark⟩ := ih fun y hy => h y (mem_append_left _ hy)
    rw [run_append_singleton, found_append]
    by_cases hx : x.1 = i
    · obtain ⟨j, bs⟩ := x
      obtain rfl : j = i := hx
      obtain ⟨bs, rfl⟩ := ne_none_iff_exists'.mp (h (j, bs) (by simp) rfl)
      rw [found_singleton_self, plain_append, ← hrows]
      refine ⟨?_, ?_⟩
      · simp [visit, fiber_append, fiber_of_eq fst_of_mem_plain]
      · simp only [visit, hmark]
        cases found visits j <;> simp
    · rw [(fiber_visit_ne _ hx).1, (fiber_visit_ne _ hx).2, hrows, hmark]
      obtain ⟨j, bs⟩ := x
      rw [found_singleton_ne bs hx, append_nil]
      exact ⟨rfl, rfl⟩

theorem fiber_finish (s : Marks β) (n i : ℕ) : fiber (s.finish n) i =
    fiber s.rows i ++ if i < n ∧ s.matched i = false then [(i, none)] else [] := by
  rw [finish, fiber_append]
  congr 1
  have hblank : ((range n).filter fun i => !s.matched i).map (fun i => (i, none)) =
      (range n).flatMap fun i => if s.matched i then [] else [(i, (none : Option β))] := by
    induction n with
    | zero => rfl
    | succ n ih =>
      rw [range_succ, filter_append, map_append, ih]
      cases h : s.matched n <;> simp [h]
  have hfst : ∀ j, ∀ x ∈ (if s.matched j then [] else [(j, (none : Option β))]), x.1 = j := by
    intro j x hx
    split_ifs at hx
    · cases hx
    · rw [mem_singleton.mp hx]
  rw [hblank, fiber_flatMap_range hfst]
  cases h : s.matched i <;> by_cases hi : i < n <;> simp

end Marks

theorem finish_perm [DecidableEq β] {n : ℕ} (hlt : ∀ x ∈ visits, x.1 < n)
    (hu : ∀ x ∈ visits, ∀ y ∈ visits, x.1 = y.1 → x.2 = none → y.2 = none) :
    ((Marks.run visits).finish n).Perm ((range n).flatMap fun i => padded i (found visits i)) := by
  apply perm_of_fibers
  intro i
  rw [Marks.fiber_finish, fiber_flatMap_range fun i => fst_of_mem_padded]
  by_cases hnone : ∃ x ∈ visits, x.1 = i ∧ x.2 = none
  · obtain ⟨x, hx, rfl, hblank⟩ := hnone
    have hall : ∀ y ∈ visits, y.1 = x.1 → y.2 = none := fun y hy hxy => hu x hx y hy hxy.symm hblank
    have hfound : found visits x.1 = [] :=
      found_eq_nil fun y hy hxy => by rw [hall y hy hxy, getD_none]
    rw [Marks.fiber_run_of_none hall, hfound]
    cases (Marks.run visits).matched x.1 <;> simp [padded, hlt x hx]
  · push Not at hnone
    obtain ⟨hrows, hmark⟩ := Marks.fiber_run_of_some hnone
    rw [hrows, hmark]
    by_cases hi : i < n
    · cases hf : found visits i <;> simp [padded, plain, hi]
    · simp [found_of_ge hlt (not_lt.mp hi), hi, plain]

theorem emitted_perm [DecidableEq β] {n : ℕ} (hlt : ∀ x ∈ visits, x.1 < n) :
    (emitted visits).Perm ((range n).flatMap fun i => plain i (found visits i)) := by
  apply perm_of_fibers
  intro i
  rw [fiber_emitted, fiber_flatMap_range fun i => fst_of_mem_plain]
  by_cases hi : i < n
  · rw [if_pos hi]
  · simp [found_of_ge hlt (not_lt.mp hi), plain]

end Neug.Lib
