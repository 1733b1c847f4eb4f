import Neug.Lib.Walks

/-! Breadth-first search level by level. A node is entered in the tree once, with the first hop that
reaches it and the node this hop was taken from. -/
namespace Neug.Lib
open List Option

variable {α β : Type}

structure Level (α β : Type) where
  tree : List (α × β)
  next : List α
  deriving DecidableEq, Repr

namespace Moves

variable (m : Moves α β) {s y : α} {n k : ℕ}

/-- There is a walk of length `n` from `s` to `y`. -/
def Joins (s y : α) (n : ℕ) : Prop := ∃ w, m.IsWalk s w ∧ m.last s w = y ∧ w.length = n
def IsDist (s y : α) (n : ℕ) : Prop := IsLeast {n | m.Joins s y n} n
def IsHopDist (s y : α) (n : ℕ) : Prop := IsLeast {n | 0 < n ∧ m.Joins s y n} n

theorem joins_zero : m.Joins s y 0 ↔ s = y := by
  constructor
  · rintro ⟨w, -, hlast, hlen⟩
    obtain rfl := length_eq_zero_iff.mp hlen
    exact hlast
  · rintro rfl
    exact ⟨[], m.isWalk_nil s, rfl, rfl⟩

theorem joins_succ : m.Joins s y (n + 1) ↔ ∃ u, m.Joins s u n ∧ ∃ b ∈ m.next u, m.target b = y := by
  constructor
  · rintro ⟨w, hwalk, hlast, hlen⟩
    cases w with
    | nil => cases hlen
    | cons b w => exact ⟨_, ⟨w, hwalk.1, rfl, by simpa using hlen⟩, b, hwalk.2, hlast⟩
  · rintro ⟨u, ⟨w, hwalk, rfl, hlen⟩, b, hb, rfl⟩
    exact ⟨b :: w, ⟨hwalk, hb⟩, rfl, by rw [length_cons, hlen]⟩

theorem isDist_self (s : α) : m.IsDist s s 0 :=
  ⟨m.joins_zero.mpr rfl, fun _ _ => Nat.zero_le _⟩

theorem IsDist.unique {k : ℕ} (h : m.IsDist s y n) (h' : m.IsDist s y k) : n = k :=
  IsLeast.unique h h'

theorem isHopDist_iff (hne : y ≠ s) : m.IsHopDist s y n ↔ m.IsDist s y n := by
  have hset : {n | 0 < n ∧ m.Joins s y n} = {n | m.Joins s y n} := by
    ext n
    refine ⟨And.right, fun h => ⟨pos_of_ne_zero ?_, h⟩⟩
    rintro rfl
    exact hne (m.joins_zero.mp h).symm
  unfold IsHopDist IsDist
  rw [hset]

/-- The node before the last of a shortest walk has a shortest walk of one hop less. -/
theorem IsHopDist.pred (h : m.IsHopDist s y (n + 2)) :
    ∃ u, m.IsHopDist s u (n + 1) ∧ ∃ b ∈ m.next u, m.target b = y := by
  obtain ⟨u, hu, hb⟩ := m.joins_succ.mp h.1.2
  refine ⟨u, ⟨⟨Nat.succ_pos n, hu⟩, fun j hj => ?_⟩, hb⟩
  have := h.2 ⟨Nat.succ_pos j, m.joins_succ.mpr ⟨u, hj.2, hb⟩⟩
  omega

theorem IsDist.pred (h : m.IsDist s y (n + 1)) :
    ∃ u, m.IsDist s u n ∧ ∃ b ∈ m.next u, m.target b = y := by
  obtain ⟨u, hu, hb⟩ := m.joins_succ.mp h.1
  refine ⟨u, ⟨hu, fun j hj => ?_⟩, hb⟩
  exact Nat.le_of_succ_le_succ (h.2 (m.joins_succ.mpr ⟨u, hj, hb⟩))

theorem IsDist.exists_at {i : ℕ} (h : m.IsDist s y n) (hi : i ≤ n) : ∃ u, m.IsDist s u i := by
  induction n, hi using Nat.le_induction generalizing y with
  | base => exact ⟨y, h⟩
  | succ n hn ih =>
    obtain ⟨u, hu, -⟩ := h.pred m
    exact ih hu

theorem IsDist.ne (h : m.IsDist s y n) (hn : 0 < n) : y ≠ s := by
  rintro rfl
  have := h.unique m (m.isDist_self y)
  omega

theorem Joins.exists_isHopDist (h : m.Joins s y n) (hpos : 0 < n) : ∃ k ≤ n, m.IsHopDist s y k := by
  classical
  have hex : ∃ k, 0 < k ∧ m.Joins s y k := ⟨n, hpos, h⟩
  exact ⟨Nat.find hex, Nat.find_min' hex ⟨hpos, h⟩, Nat.find_spec hex,
    fun k hk => Nat.find_min' hex hk⟩

variable [DecidableEq α] (seen : α → Bool)

def entered (e : α × β) : α := m.target e.2

def enter (u : α) (l : Level α β) (b : β) : Level α β :=
  if seen (m.target b) = true ∨ m.target b ∈ l.tree.map m.entered then l
  else ⟨l.tree ++ [(u, b)], l.next ++ [m.target b]⟩

def scan (cur : List α) (l : Level α β) : Level α β :=
  cur.foldl (fun l u => (m.next u).foldl (m.enter seen u) l) l

/-- The tree and the level after `k` levels were scanned. -/
def level (s : α) : ℕ → Level α β
  | 0 => ⟨[], [s]⟩
  | k + 1 => m.scan seen (level s k).next ⟨(level s k).tree, []⟩

theorem scan_eq (cur : List α) (l : Level α β) : m.scan seen cur l =
    (cur.flatMap fun u => (m.next u).map (Prod.mk u)).foldl (fun l e => m.enter seen e.1 l e.2) l := by
  unfold scan
  rw [foldl_flatMap]
  congr 1
  funext l u
  rw [foldl_map]

/-- A scan enters a choice of the hops, one for each node that was not seen or entered before. -/
theorem foldl_enter (hops : List (α × β)) (t : List (α × β)) (q : List α) : ∃ new,
    hops.foldl (fun l e => m.enter seen e.1 l e.2) ⟨t, q⟩ = ⟨t ++ new, q ++ new.map m.entered⟩ ∧
      new ⊆ hops ∧ (new.map m.entered).Nodup ∧
      (∀ e ∈ new, ¬ seen (m.entered e) = true ∧ m.entered e ∉ t.map m.entered) ∧
      ∀ e ∈ hops, seen (m.entered e) = true ∨ m.entered e ∈ (t ++ new).map m.entered := by
  induction hops generalizing t q with
  | nil => exact ⟨[], by simp⟩
  | cons e hops ih =>
    rw [foldl_cons]
    by_cases hold : seen (m.target e.2) = true ∨ m.target e.2 ∈ t.map m.entered
    · rw [enter, if_pos hold]
      obtain ⟨new, heq, hsub, hnodup, hnew, hall⟩ := ih t q
      refine ⟨new, heq, List.Subset.trans hsub (subset_cons_self e hops), hnodup, hnew, ?_⟩
      rintro x (_ | ⟨_, hx⟩)
      · rw [map_append, mem_append]
        exact hold.imp_right .inl
      · exact hall x hx
    · rw [enter, if_neg hold]
      push Not at hold
      obtain ⟨new, heq, hsub, hnodup, hnew, hall⟩ := ih (t ++ [e]) (q ++ [m.target e.2])
      refine ⟨e :: new, by simpa [entered] using heq, cons_subset_cons e hsub, ?_, ?_, ?_⟩
      · refine nodup_cons.mpr ⟨fun hmem => ?_, hnodup⟩
        obtain ⟨x, hx, hxe⟩ := mem_map.mp hmem
        exact (hnew x hx).2 (by simp [hxe])
      · rintro x (_ | ⟨_, hx⟩)
        · exact hold
        · have hx' := hnew x hx
          rw [map_append, mem_append, not_or] at hx'
          exact ⟨hx'.1, hx'.2.1⟩
      · rintro x (_ | ⟨_, hx⟩)
        · exact .inr (by simp)
        · simpa using hall x hx

theorem level_succ (s : α) (k : ℕ) : ∃ new,
    (m.level seen s (k + 1)).tree = (m.level seen s k).tree ++ new ∧
      (m.level seen s (k + 1)).next = new.map m.entered ∧
      (new.map m.entered).Nodup ∧
      (∀ e ∈ new, e.1 ∈ (m.level seen s k).next ∧ e.2 ∈ m.next e.1 ∧
        ¬ seen (m.entered e) = true ∧ m.entered e ∉ (m.level seen s k).tree.map m.entered) ∧
      ∀ u ∈ (m.level seen s k).next, ∀ b ∈ m.next u, seen (m.target b) = true ∨
        m.target b ∈ (m.level seen s (k + 1)).tree.map m.entered := by
  obtain ⟨new, heq, hsub, hnodup, hnew, hall⟩ := m.foldl_enter seen
    ((m.level seen s k).next.flatMap fun u => (m.next u).map (Prod.mk u)) (m.level seen s k).tree []
  rw [← m.scan_eq seen] at heq
  have hlevel : m.level seen s (k + 1) =
      ⟨(m.level seen s k).tree ++ new, [] ++ new.map m.entered⟩ := heq
  refine ⟨new, by rw [hlevel], by rw [hlevel, nil_append], hnodup, ?_, ?_⟩
  · intro e he
    obtain ⟨u, hu, he'⟩ := mem_flatMap.mp (hsub he)
    obtain ⟨b, hb, rfl⟩ := mem_map.mp he'
    exact ⟨hu, hb, hnew _ he⟩
  · intro u hu b hb
    rw [hlevel]
    exact hall (u, b) (mem_flatMap.mpr ⟨u, hu, mem_map.mpr ⟨b, hb, rfl⟩⟩)

theorem nodup_tree (s : α) (k : ℕ) : ((m.level seen s k).tree.map m.entered).Nodup := by
  induction k with
  | zero => exact nodup_nil
  | succ k ih =>
    obtain ⟨new, htree, -, hnodup, hnew, -⟩ := m.level_succ seen s k
    rw [htree, map_append]
    refine ih.append hnodup fun y hy hy' => ?_
    obtain ⟨e, he, rfl⟩ := mem_map.mp hy'
    exact (hnew e he).2.2.2 hy

theorem nodup_next (s : α) (k : ℕ) : (m.level seen s k).next.Nodup := by
  cases k with
  | zero => exact nodup_singleton s
  | succ k =>
    obtain ⟨new, -, hnext, hnodup, -⟩ := m.level_succ seen s k
    rw [hnext]
    exact hnodup

theorem le_length_tree (s : α) (k : ℕ) (h : (m.level seen s k).next ≠ []) :
    k ≤ (m.level seen s k).tree.length := by
  induction k with
  | zero => exact Nat.zero_le _
  | succ k ih =>
    obtain ⟨new, htree, hnext, -, hnew, -⟩ := m.level_succ seen s k
    cases new with
    | nil => exact absurd hnext h
    | cons e new =>
      have := ih (ne_nil_of_mem (hnew e mem_cons_self).1)
      rw [htree, length_append, length_cons]
      omega

theorem tree_mono {j k : ℕ} (h : j ≤ k) : (m.level seen s j).tree <+: (m.level seen s k).tree := by
  induction k, h using Nat.le_induction with
  | base => exact prefix_rfl
  | succ k _ ih =>
    obtain ⟨new, htree, -⟩ := m.level_succ seen s k
    rw [htree]
    exact ih.trans (prefix_append _ _)

section

variable (hseen : ∀ x, seen x = true → x = s)
include hseen

/-- The tree holds the nodes that at most `k` hops lead to, and the level those that `k` hops lead
to and fewer do not. -/
theorem mem_level (k : ℕ) : (∀ y, y ∈ (m.level seen s k).tree.map m.entered ↔
      ¬ seen y = true ∧ ∃ j, 0 < j ∧ j ≤ k ∧ m.Joins s y j) ∧
    ∀ y, y ∈ (m.level seen s (k + 1)).next ↔ ¬ seen y = true ∧ m.IsHopDist s y (k + 1) := by
  -- a node of the next level is a target of this one that is not in the tree
  have hnext : ∀ k, (∀ y, y ∈ (m.level seen s k).tree.map m.entered ↔
      ¬ seen y = true ∧ ∃ j, 0 < j ∧ j ≤ k ∧ m.Joins s y j) →
      (∀ u, u ∈ (m.level seen s k).next ↔
        if k = 0 then u = s else ¬ seen u = true ∧ m.IsHopDist s u k) →
      ∀ y, y ∈ (m.level seen s (k + 1)).next ↔ ¬ seen y = true ∧ m.IsHopDist s y (k + 1) := by
    intro k htree hlevel y
    obtain ⟨new, htree', hnext, -, hnew, hall⟩ := m.level_succ seen s k
    have hold : ∀ y, ¬ seen y = true → y ∉ (m.level seen s k).tree.map m.entered →
        ∀ j, 0 < j → m.Joins s y j → k + 1 ≤ j := by
      intro y hy hmem j hpos hj
      by_contra hlt
      exact hmem ((htree y).mpr ⟨hy, j, hpos, by omega, hj⟩)
    rw [hnext]
    constructor
    · intro hy
      obtain ⟨e, he, rfl⟩ := mem_map.mp hy
      obtain ⟨hu, hb, hs, hmem⟩ := hnew e he
      have hjoin : m.Joins s e.1 k := by
        have := (hlevel e.1).mp hu
        split_ifs at this with hk
        · rw [hk, this]
          exact m.joins_zero.mpr rfl
        · exact this.2.1.2
      exact ⟨hs, ⟨Nat.succ_pos k, m.joins_succ.mpr ⟨_, hjoin, _, hb, rfl⟩⟩,
        fun j hj => hold _ hs hmem j hj.1 hj.2⟩
    · rintro ⟨hs, hdist⟩
      obtain ⟨u, hu, b, hb, rfl⟩ : ∃ u ∈ (m.level seen s k).next, ∃ b ∈ m.next u, m.target b = y := by
        cases k with
        | zero =>
          obtain ⟨u, hu, hb⟩ := m.joins_succ.mp hdist.1.2
          exact ⟨u, (hlevel u).mpr (m.joins_zero.mp hu).symm, hb⟩
        | succ k =>
          obtain ⟨u, hu, hb⟩ := hdist.pred m
          refine ⟨u, (hlevel u).mpr ?_, hb⟩
          refine ⟨fun hsu => ?_, hu⟩
          -- from the start one hop would be enough
          have hone : m.Joins s y 1 :=
            m.joins_succ.mpr ⟨s, m.joins_zero.mpr rfl, by rwa [← hseen u hsu]⟩
          have := hdist.2 ⟨one_pos, hone⟩
          omega
      rcases hall u hu b hb with h | h
      · exact absurd h hs
      · rw [htree', map_append, mem_append] at h
        refine h.resolve_left fun h => ?_
        obtain ⟨-, j, hpos, hle, hj⟩ := (htree _).mp h
        have := hdist.2 ⟨hpos, hj⟩
        omega
  induction k with
  | zero =>
    have htree : ∀ y, y ∈ (m.level seen s 0).tree.map m.entered ↔
        ¬ seen y = true ∧ ∃ j, 0 < j ∧ j ≤ 0 ∧ m.Joins s y j := by
      intro y
      refine ⟨fun h => absurd h not_mem_nil, ?_⟩
      rintro ⟨-, j, hpos, hle, -⟩
      omega
    exact ⟨htree, hnext 0 htree fun u => by simp [level]⟩
  | succ k ih =>
    obtain ⟨htree, hlevel⟩ := ih
    obtain ⟨new, htree', hnext', -⟩ := m.level_succ seen s k
    have htree'' : ∀ y, y ∈ (m.level seen s (k + 1)).tree.map m.entered ↔
        ¬ seen y = true ∧ ∃ j, 0 < j ∧ j ≤ k + 1 ∧ m.Joins s y j := by
      intro y
      rw [htree', map_append, mem_append, ← hnext', htree, hlevel]
      constructor
      · rintro (⟨hs, j, hpos, hle, hj⟩ | ⟨hs, hdist⟩)
        · exact ⟨hs, j, hpos, by omega, hj⟩
        · exact ⟨hs, k + 1, Nat.succ_pos k, le_rfl, hdist.1.2⟩
      · rintro ⟨hs, j, hpos, hle, hj⟩
        by_cases hless : ∃ i, 0 < i ∧ i ≤ k ∧ m.Joins s y i
        · exact .inl ⟨hs, hless⟩
        · refine .inr ⟨hs, ?_⟩
          obtain rfl : j = k + 1 := by
            by_contra hne
            exact hless ⟨j, hpos, by omega, hj⟩
          refine ⟨⟨hpos, hj⟩, fun i hi => ?_⟩
          by_contra hlt
          exact hless ⟨i, hi.1, by omega, hi.2⟩
    exact ⟨htree'', hnext (k + 1) htree'' fun u => by simpa using hlevel u⟩

theorem mem_tree (k : ℕ) (y : α) : y ∈ (m.level seen s k).tree.map m.entered ↔
    ¬ seen y = true ∧ ∃ j, 0 < j ∧ j ≤ k ∧ m.Joins s y j := (m.mem_level seen hseen k).1 y

theorem mem_next (k : ℕ) (y : α) : y ∈ (m.level seen s (k + 1)).next ↔
    ¬ seen y = true ∧ m.IsHopDist s y (k + 1) := (m.mem_level seen hseen k).2 y

end

def entry (t : List (α × β)) (y : α) : Option (α × β) := t.find? fun e => m.entered e = y

theorem entry_of_mem_next {K : ℕ} (hk : k < K) (hy : y ∈ (m.level seen s (k + 1)).next) :
    ∃ e, m.entry (m.level seen s K).tree y = some e ∧ e.1 ∈ (m.level seen s k).next ∧
      e.2 ∈ m.next e.1 ∧ m.target e.2 = y := by
  obtain ⟨new, htree, hnext, -, hnew, -⟩ := m.level_succ seen s k
  rw [hnext] at hy
  obtain ⟨e, he, rfl⟩ := mem_map.mp hy
  refine ⟨e, ?_, (hnew e he).1, (hnew e he).2.1, rfl⟩
  have hmem : e ∈ (m.level seen s K).tree :=
    (m.tree_mono seen hk).subset (by rw [htree]; exact mem_append_right _ he)
  obtain ⟨e', he'⟩ : ∃ e', m.entry (m.level seen s K).tree (m.entered e) = some e' := by
    refine isSome_iff_exists.mp (find?_isSome.mpr ⟨e, hmem, by simp⟩)
  have hsame : m.entered e' = m.entered e := by simpa using find?_some he'
  rw [he', inj_on_of_nodup_map (m.nodup_tree seen s K) (mem_of_find?_eq_some he') hmem hsame]

def trace (root : α) (t : List (α × β)) : ℕ → α → Option (List β)
  | 0, _ => none
  | fuel + 1, y =>
    if y = root then some []
    else (m.entry t y).bind fun e => (trace root t fuel e.1).map (e.2 :: ·)

/-- In a tree that does not hold the root, a node of level `k` is traced in `k` hops. -/
theorem trace_of_mem_next (hroot : seen s = true) {K fuel : ℕ} (hk : k ≤ K) (hfuel : k < fuel)
    (hy : y ∈ (m.level seen s k).next) :
    ∃ w, m.trace s (m.level seen s K).tree fuel y = some w ∧ m.IsWalk s w ∧ m.last s w = y ∧
      w.length = k := by
  induction k generalizing y fuel with
  | zero =>
    obtain ⟨fuel, rfl⟩ : ∃ f, fuel = f + 1 := ⟨fuel - 1, by omega⟩
    obtain rfl : y = s := mem_singleton.mp hy
    exact ⟨[], by rw [trace, if_pos rfl], m.isWalk_nil y, rfl, rfl⟩
  | succ k ih =>
    obtain ⟨fuel, rfl⟩ : ∃ f, fuel = f + 1 := ⟨fuel - 1, by omega⟩
    obtain ⟨e, he, hu, hb, rfl⟩ := m.entry_of_mem_next seen hk hy
    obtain ⟨w, hw, hwalk, hlast, hlen⟩ := ih (by omega) (by omega : k < fuel) hu
    have hne : m.target e.2 ≠ s := by
      rintro heq
      obtain ⟨new, -, hnext, -, hnew, -⟩ := m.level_succ seen s k
      rw [hnext] at hy
      obtain ⟨e', he', heq'⟩ := mem_map.mp hy
      exact (hnew e' he').2.2.1 (by rw [heq', heq, hroot])
    refine ⟨e.2 :: w, ?_, ⟨hwalk, by rwa [hlast]⟩, rfl, by rw [length_cons, hlen]⟩
    rw [trace, if_neg hne, he, bind_some, hw]
    rfl

end Moves

end Neug.Lib
