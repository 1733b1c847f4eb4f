import Neug.Lib.Bfs

/-! Distances where every hop can be taken back, for searches from both ends. -/
namespace Neug.Lib.Moves
open Finset

variable {α β : Type} (m : Moves α β) {s t x y : α} {a b i j n : ℕ}

/-- A hop leads from `u` to `v`. -/
def Adj (u v : α) : Prop := ∃ b ∈ m.next u, m.target b = v
def Reversible : Prop := ∀ u v, m.Adj u v → m.Adj v u

theorem joins_add : m.Joins s y (i + j) ↔ ∃ x, m.Joins s x i ∧ m.Joins x y j := by
  induction j generalizing y with
  | zero =>
    constructor
    · exact fun h => ⟨y, h, m.joins_zero.mpr rfl⟩
    · rintro ⟨x, hx, hy⟩
      rwa [← m.joins_zero.mp hy]
  | succ j ih =>
    rw [← add_assoc, m.joins_succ]
    constructor
    · rintro ⟨u, hu, hb⟩
      obtain ⟨x, hx, hxu⟩ := ih.mp hu
      exact ⟨x, hx, m.joins_succ.mpr ⟨u, hxu, hb⟩⟩
    · rintro ⟨x, hx, hy⟩
      obtain ⟨u, hxu, hb⟩ := m.joins_succ.mp hy
      exact ⟨u, ih.mpr ⟨x, hx, hxu⟩, hb⟩

theorem IsWalk.append {u v : List β} (h : m.IsWalk s (u ++ v)) :
    m.IsWalk s v ∧ m.Joins (m.last s v) (m.last s (u ++ v)) u.length := by
  induction u with
  | nil => exact ⟨h, m.joins_zero.mpr rfl⟩
  | cons b u ih =>
    obtain ⟨hwalk, hjoin⟩ := ih h.1
    exact ⟨hwalk, m.joins_succ.mpr ⟨_, hjoin, b, h.2, rfl⟩⟩

theorem joins_one : m.Joins s y 1 ↔ m.Adj s y := by
  rw [m.joins_succ]
  constructor
  · rintro ⟨u, hu, hb⟩
    rwa [m.joins_zero.mp hu]
  · exact fun h => ⟨s, m.joins_zero.mpr rfl, h⟩

theorem Joins.exists_isDist (h : m.Joins s y n) : ∃ k ≤ n, m.IsDist s y k := by
  classical
  have hex : ∃ k, m.Joins s y k := ⟨n, h⟩
  exact ⟨Nat.find hex, Nat.find_min' hex h, Nat.find_spec hex, fun k hk => Nat.find_min' hex hk⟩

theorem IsDist.adj_le (hx : m.IsDist s x i) (hadj : m.Adj x y) (hy : m.IsDist s y j) : j ≤ i + 1 :=
  hy.2 (m.joins_succ.mpr ⟨x, hx.1, hadj⟩)

theorem Joins.exists_adj (h : m.Joins s y (n + 1)) : ∃ z, m.Adj s z := by
  rw [add_comm] at h
  obtain ⟨z, hz, -⟩ := m.joins_add.mp h
  exact ⟨z, m.joins_one.mp hz⟩

theorem isDist_zero : m.IsDist s y 0 ↔ y = s := by
  constructor
  · exact fun h => (m.joins_zero.mp h.1).symm
  · rintro rfl
    exact m.isDist_self y

/-- There are nodes at all distances up to a given one, so the nodes outnumber it. -/
theorem IsDist.lt_card (h : m.IsDist s y n) {U : Finset α} (hs : s ∈ U)
    (hU : ∀ u v, m.Adj u v → v ∈ U) : n < U.card := by
  have hex : ∀ i, ∃ u, i ≤ n → m.IsDist s u i := by
    intro i
    by_cases hi : i ≤ n
    · obtain ⟨u, hu⟩ := h.exists_at m hi
      exact ⟨u, fun _ => hu⟩
    · exact ⟨s, fun hle => absurd hle hi⟩
  choose f hf using hex
  rw [← Nat.succ_le_iff, Nat.succ_eq_add_one, ← card_range (n + 1)]
  refine card_le_card_of_injOn f (fun i hi => ?_) fun i hi j hj heq => ?_
  · have hdist := hf i (Nat.lt_succ_iff.mp (mem_range.mp hi))
    cases i with
    | zero =>
      rw [m.isDist_zero.mp hdist]
      exact hs
    | succ i =>
      obtain ⟨u, -, hadj⟩ := hdist.pred m
      exact hU u _ hadj
  · have hdist := hf i (Nat.lt_succ_iff.mp (mem_range.mp hi))
    rw [heq] at hdist
    exact hdist.unique m (hf j (Nat.lt_succ_iff.mp (mem_range.mp hj)))

variable {m}

theorem Joins.symm (hrev : m.Reversible) (h : m.Joins s y n) : m.Joins y s n := by
  induction n generalizing y with
  | zero => exact m.joins_zero.mpr (m.joins_zero.mp h).symm
  | succ n ih =>
    obtain ⟨u, hu, hadj⟩ := m.joins_succ.mp h
    rw [add_comm]
    exact m.joins_add.mpr ⟨u, m.joins_one.mpr (hrev _ _ hadj), ih hu⟩

theorem IsDist.symm (hrev : m.Reversible) (h : m.IsDist s y n) : m.IsDist y s n :=
  ⟨h.1.symm hrev, fun _ hk => h.2 (Joins.symm hrev hk)⟩

/-- Two balls without a common node: their centres are farther apart than the two radii. -/
theorem add_lt_of_disjoint (hrev : m.Reversible)
    (h : ∀ x, (∃ i ≤ a, m.Joins s x i) → ¬ ∃ j ≤ b, m.Joins t x j) (hn : m.Joins s t n) :
    a + b < n := by
  by_contra hle
  have hsplit : min a n + (n - min a n) = n := by omega
  rw [← hsplit] at hn
  obtain ⟨x, hx, hxt⟩ := m.joins_add.mp hn
  exact h x ⟨_, by omega, hx⟩ ⟨_, by omega, hxt.symm hrev⟩

section

variable {d : ℕ}

/-- `x` is `i` hops from the start of a walk of length `d` from `s` to `t` that is shortest up to `x`
and from there on. -/
structure Between (m : Moves α β) (s t : α) (d i : ℕ) (x : α) : Prop where
  le : i ≤ d
  left : m.IsDist s x i
  right : m.IsDist t x (d - i)

variable (hrev : m.Reversible) (hd : m.IsDist s t d)
include hrev hd

/-- Two walks that meet and are together as long as a shortest walk are shortest themselves. -/
theorem Between.of_joins (hs : m.Joins s x i) (ht : m.Joins t x j) (hij : i + j = d) :
    m.Between s t d i x := by
  have hj : d - i = j := by omega
  refine ⟨by omega, ⟨hs, fun k hk => ?_⟩, ?_⟩
  · have := hd.2 (m.joins_add.mpr ⟨x, hk, ht.symm hrev⟩)
    omega
  · rw [hj]
    refine ⟨ht, fun k hk => ?_⟩
    have := hd.2 (m.joins_add.mpr ⟨x, hs, Joins.symm hrev hk⟩)
    omega

theorem Between.toward (h : m.Between s t d i x) (hadj : m.Adj x y) (ht : m.IsDist t y j)
    (hj : j + 1 = d - i) : m.Between s t d (i + 1) y :=
  .of_joins hrev hd (m.joins_succ.mpr ⟨x, h.left.1, hadj⟩) ht.1 (by omega)

theorem Between.back (h : m.Between s t d (i + 1) x) (hadj : m.Adj x y) (hs : m.IsDist s y i) :
    m.Between s t d i y := by
  have hle := h.le
  exact .of_joins hrev hd hs.1 (m.joins_succ.mpr ⟨x, h.right.1, hadj⟩) (by omega)

theorem Between.exists_succ (h : m.Between s t d i x) (hi : i < d) :
    ∃ y, m.Adj x y ∧ m.Between s t d (i + 1) y := by
  have hright := h.right
  obtain ⟨k, hk⟩ : ∃ k, d - i = k + 1 := ⟨d - i - 1, by omega⟩
  rw [hk] at hright
  obtain ⟨y, hy, hadj⟩ := hright.pred m
  have hadj' := hrev y x hadj
  exact ⟨y, hadj', h.toward hrev hd hadj' hy hk.symm⟩

theorem Between.exists_pred (h : m.Between s t d (i + 1) x) :
    ∃ y, m.Adj y x ∧ m.Between s t d i y := by
  obtain ⟨y, hy, hadj⟩ := h.left.pred m
  exact ⟨y, hadj, h.back hrev hd (hrev y x hadj) hy⟩

theorem Between.of_suffix {v w : List β} (hw : m.IsWalk s w) (hlast : m.last s w = t)
    (hlen : w.length = d) (hv : v <:+ w) : m.Between s t d v.length (m.last s v) := by
  obtain ⟨u, rfl⟩ := hv
  obtain ⟨hwalk, hjoin⟩ := hw.append m
  rw [hlast] at hjoin
  rw [List.length_append] at hlen
  exact .of_joins hrev hd ⟨v, hwalk, rfl, rfl⟩ (hjoin.symm hrev) (by omega)

end

end Neug.Lib.Moves
