import Neug.Execution.AllShortestSearch

/-! The first search for all shortest paths. Each side has reached a ball around its end, with exact
distances as long as these fit an `int8_t`. -/
namespace Neug.Execution
open Neug.Lib List Option Function

variable {E : Type} {m : Moves VertexRecord (Hop E)}

theorem toInt8_of_le {k : ℕ} (h : k ≤ 127) : toInt8 k = k := by
  exact Int.bmod_eq_of_le (by omega) (by omega)

theorem toInt8_of_gt {k : ℕ} (h : 127 < k) (h' : k ≤ 255) : toInt8 k = k - 256 := by
  unfold toInt8
  rw [Int.bmod_def]
  have hmod : (k : ℤ) % (256 : ℕ) = k := Int.emod_eq_of_lt (by omega) (by omega)
  rw [hmod, if_neg (by omega)]
  rfl

theorem toInt8_ne {k : ℕ} (h : k ≤ 254) : toInt8 k ≠ -1 := by
  by_cases hk : k ≤ 127
  · rw [toInt8_of_le hk]
    omega
  · rw [toInt8_of_gt (by omega) (by omega)]
    omega

theorem toInt8_succ (k : ℕ) : toInt8 (toInt8 k + 1) = toInt8 (k + 1 : ℕ) := by
  unfold toInt8
  rw [Int.bmod_add_bmod]
  rfl

theorem toInt8_mem (n : ℤ) : -128 ≤ toInt8 n ∧ toInt8 n ≤ 127 := by
  unfold toInt8
  have hlow := Int.le_bmod (x := n) (m := 256) (by decide)
  have hup := Int.bmod_lt (x := n) (m := 256) (by decide)
  omega

section

variable (a : Side) (far : VertexRecord → ℤ) {x y : VertexRecord}

/-- A vertex that was not reached is pushed, once if the value it gets marks it as reached. -/
theorem foldl_visit (value : ℤ) (nbrs : List VertexRecord) (f : Front) : ∃ new,
    nbrs.foldl (Front.visit far value) f =
      ⟨fun y => if y ∈ new then value else f.dist y, f.tmp ++ new,
        f.vec ++ new.filter (far · ≠ -1)⟩ ∧
      (∀ y, y ∈ new ↔ f.dist y = -1 ∧ y ∈ nbrs) ∧ (value ≠ -1 → new.Nodup) := by
  induction nbrs generalizing f with
  | nil => exact ⟨[], by simp, by simp, fun _ => nodup_nil⟩
  | cons y nbrs ih =>
    rw [foldl_cons]
    by_cases hy : f.dist y = -1
    · obtain ⟨new, heq, hmem, hnodup⟩ := ih (f.visit far value y)
      rw [Front.visit, if_pos hy] at heq hmem
      refine ⟨y :: new, ?_, ?_, ?_⟩
      · rw [Front.visit, if_pos hy, heq]
        congr 1
        · funext z
          by_cases hz : z = y
          · simp [hz]
          · simp [hz]
        · simp
        · by_cases hfar : far y = -1
          · simp [hfar]
          · simp [hfar]
      · intro z
        by_cases hz : z = y
        · simp [hz, hy]
        · simp [hz, hmem]
      · intro hvalue
        refine nodup_cons.mpr ⟨fun hin => ?_, hnodup hvalue⟩
        have hdist := ((hmem y).mp hin).1
        simp only [update_self] at hdist
        exact hvalue hdist
    · obtain ⟨new, heq, hmem, hnodup⟩ := ih f
      refine ⟨new, ?_, ?_, hnodup⟩
      · rw [Front.visit, if_neg hy, heq]
      · intro z
        rw [hmem, mem_cons]
        constructor
        · exact fun h => ⟨h.1, .inr h.2⟩
        · rintro ⟨hz, rfl | h⟩
          · exact absurd hz hy
          · exact ⟨hz, h⟩

/-- With the value -1 nothing is marked, so a vertex is pushed once for each time it is met. -/
theorem tmp_foldl_visit (nbrs : List VertexRecord) (f : Front) :
    (nbrs.foldl (Front.visit far (-1)) f).tmp = f.tmp ++ nbrs.filter (f.dist · = -1) := by
  induction nbrs generalizing f with
  | nil => simp
  | cons y nbrs ih =>
    rw [foldl_cons, ih]
    by_cases hy : f.dist y = -1
    · have hsame : update f.dist y (-1) = f.dist := by
        rw [← hy]
        exact update_eq_self y f.dist
      simp [Front.visit, hy, hsame]
    · simp [Front.visit, hy]

def Side.neighbours (m : Moves VertexRecord (Hop E)) : List VertexRecord :=
  (a.queue.flatMap m.next).map m.target

theorem Side.mem_neighbours : y ∈ a.neighbours m ↔ ∃ x ∈ a.queue, m.Adj x y := by
  unfold Side.neighbours
  simp only [List.mem_map, mem_flatMap]
  constructor
  · rintro ⟨h, ⟨x, hx, hh⟩, hy⟩
    exact ⟨x, hx, h, hh, hy⟩
  · rintro ⟨x, hx, h, hh, hy⟩
    exact ⟨h, ⟨x, hx, hh⟩, hy⟩

theorem Side.scan_eq : a.scan m far =
    (a.neighbours m).foldl (Front.visit far (toInt8 (a.dep + 1))) ⟨a.dist, [], []⟩ := by
  unfold Side.scan Side.neighbours
  rw [foldl_map, foldl_flatMap]

theorem Side.expand_spec :
    (∀ y, y ∈ (a.expand m far).queue ↔ a.dist y = -1 ∧ ∃ x ∈ a.queue, m.Adj x y) ∧
    (∀ y, (a.expand m far).dist y =
      if y ∈ (a.expand m far).queue then toInt8 (a.dep + 1) else a.dist y) ∧
    (a.scan m far).vec = (a.expand m far).queue.filter (far · ≠ -1) ∧
    (toInt8 (a.dep + 1) ≠ -1 → (a.expand m far).queue.Nodup) := by
  obtain ⟨new, heq, hmem, hnodup⟩ := foldl_visit far (toInt8 (a.dep + 1)) (a.neighbours m)
    ⟨a.dist, [], []⟩
  rw [← a.scan_eq, nil_append] at heq
  unfold Side.expand
  rw [heq]
  refine ⟨fun y => ?_, fun y => rfl, rfl, hnodup⟩
  rw [hmem, a.mem_neighbours]

end

section

/-- One side has reached the vertices at distance at most `n` from its end, with their exact distances
as `int8_t` values. -/
structure Side.Ball (m : Moves VertexRecord (Hop E)) (c : VertexRecord) (n : ℕ) (a : Side) :
    Prop where
  dep : a.dep = toInt8 n
  reached : ∀ y, a.dist y ≠ -1 → ∃ k ≤ n, m.IsDist c y k
  dist : ∀ y k, k ≤ n → m.IsDist c y k → a.dist y = toInt8 k
  queue : ∀ y, y ∈ a.queue ↔ m.IsDist c y n
  nodup : a.queue.Nodup

variable {c x y : VertexRecord} {n k : ℕ} {a : Side} (far : VertexRecord → ℤ)

theorem Side.ball_start (c : VertexRecord) : (Side.start c).Ball m c 0 where
  dep := rfl
  reached y hy := by
    by_cases hyc : y = c
    · exact ⟨0, le_rfl, m.isDist_zero.mpr hyc⟩
    · exact absurd (update_of_ne hyc 0 fun _ => (-1 : ℤ)) hy
  dist y k hk hd := by
    obtain rfl := Nat.le_zero.mp hk
    obtain rfl := m.isDist_zero.mp hd
    simp [Side.start, toInt8]
  queue y := mem_singleton.trans m.isDist_zero.symm
  nodup := nodup_singleton c

theorem Side.Ball.dist_eq_iff (h : a.Ball m c n) (hn : n ≤ 254) :
    a.dist y = -1 ↔ ∀ k ≤ n, ¬ m.IsDist c y k := by
  constructor
  · intro hy k hk hd
    rw [h.dist y k hk hd] at hy
    exact toInt8_ne (hk.trans hn) hy
  · intro hy
    by_contra hne
    obtain ⟨k, hk, hd⟩ := h.reached y hne
    exact hy k hk hd

theorem Side.Ball.mem_queue_expand (h : a.Ball m c n) (hn : n ≤ 254) :
    y ∈ (a.expand m far).queue ↔ m.IsDist c y (n + 1) := by
  rw [(a.expand_spec far).1 y, h.dist_eq_iff hn]
  constructor
  · rintro ⟨hfar, x, hx, hadj⟩
    have hjoin : m.Joins c y (n + 1) := m.joins_succ.mpr ⟨x, ((h.queue x).mp hx).1, hadj⟩
    obtain ⟨k, hk, hd⟩ := hjoin.exists_isDist
    obtain hlt | rfl := lt_or_eq_of_le hk
    · exact absurd hd (hfar k (by omega))
    · exact hd
  · intro hd
    obtain ⟨x, hx, hadj⟩ := hd.pred
    refine ⟨fun k hk hd' => ?_, x, (h.queue x).mpr hx, hadj⟩
    have := hd.unique _ hd'
    omega

/-- A round takes the ball to the next radius, unless the new distance is the mark of a vertex that
was not reached. -/
theorem Side.Ball.expand (h : a.Ball m c n) (hn : n + 1 ≤ 254) :
    (a.expand m far).Ball m c (n + 1) := by
  obtain ⟨-, hdist, -, hnodup⟩ := a.expand_spec far
  have hvalue : toInt8 (a.dep + 1) = toInt8 (n + 1 : ℕ) := by rw [h.dep, toInt8_succ]
  have hmem : ∀ y, y ∈ (a.expand m far).queue ↔ m.IsDist c y (n + 1) := fun y =>
    h.mem_queue_expand far (by omega)
  constructor
  · exact hvalue
  · intro y hy
    by_cases hin : y ∈ (a.expand m far).queue
    · exact ⟨n + 1, le_rfl, (hmem y).mp hin⟩
    · rw [hdist, if_neg hin] at hy
      obtain ⟨k, hk, hd⟩ := h.reached y hy
      exact ⟨k, by omega, hd⟩
  · intro y k hk hd
    rw [hdist]
    by_cases hin : y ∈ (a.expand m far).queue
    · rw [if_pos hin, hvalue, ((hmem y).mp hin).unique _ hd]
    · rw [if_neg hin]
      apply h.dist y k _ hd
      by_contra hlt
      obtain rfl : k = n + 1 := by omega
      exact hin ((hmem y).mpr hd)
  · exact hmem
  · apply hnodup
    rw [hvalue]
    exact toInt8_ne hn

end

section

variable {upper : ℤ} {st st' : Sides}

theorem round_eq_some (h : round m upper st = some st') :
    st.vec = [] ∧ st.src.dep < upper ∧ st.dst.dep < upper ∧
      (st.src.queue.length ≤ st.dst.queue.length ∧ st.src.queue ≠ [] ∧
          st' = ⟨st.src.expand m st.dst.dist, st.dst, (st.src.scan m st.dst.dist).vec⟩ ∨
        st.dst.queue.length < st.src.queue.length ∧ st.dst.queue ≠ [] ∧
          st' = ⟨st.src, st.dst.expand m st.src.dist, (st.dst.scan m st.src.dist).vec⟩) := by
  unfold round at h
  split_ifs at h with hend hle hsrc hdst
  · push Not at hend
    exact ⟨hend.2.2, hend.1, hend.2.1, .inl ⟨hle, hsrc, (some.inj h).symm⟩⟩
  · push Not at hend
    exact ⟨hend.2.2, hend.1, hend.2.1, .inr ⟨not_le.mp hle, hdst, (some.inj h).symm⟩⟩

theorem round_eq_none (h : round m upper st = none) :
    upper ≤ st.src.dep ∨ upper ≤ st.dst.dep ∨ st.vec ≠ [] ∨ st.src.queue = [] ∨
      st.dst.queue = [] := by
  unfold round at h
  split_ifs at h with hend hle hsrc hdst
  · rcases hend with h | h | h
    · exact .inl h
    · exact .inr (.inl h)
    · exact .inr (.inr (.inl h))
  · exact .inr (.inr (.inr (.inl hsrc)))
  · exact .inr (.inr (.inr (.inr hdst)))

end

section

variable {U : Finset VertexRecord} {a : Side} (far : VertexRecord → ℤ) {upper : ℤ}

/-- What a side can still do. A round that would write -1 reaches nothing, but the next one does not
write -1 again. -/
def Side.weight (U : Finset VertexRecord) (a : Side) : ℕ :=
  2 * (U.filter (a.dist · = -1)).card + (if toInt8 (a.dep + 1) = -1 then 1 else 0) +
    if a.queue = [] then 0 else 2

theorem Side.weight_start (U : Finset VertexRecord) (c : VertexRecord) :
    (Side.start c).weight U ≤ 2 * U.card + 2 := by
  have hfilter := Finset.card_filter_le U ((Side.start c).dist · = -1)
  have hone : toInt8 (0 + 1) ≠ -1 := by decide
  have hdep : toInt8 ((Side.start c).dep + 1) ≠ -1 := hone
  unfold Side.weight
  rw [if_neg hdep, if_neg (by simp [Side.start])]
  omega

theorem Side.weight_expand (hU : ∀ u v, m.Adj u v → v ∈ U) (hq : a.queue ≠ []) :
    (a.expand m far).weight U < a.weight U := by
  obtain ⟨hmem, hdist, -, -⟩ := a.expand_spec far
  have hdep : (a.expand m far).dep = toInt8 (a.dep + 1) := rfl
  unfold Side.weight
  rw [hdep]
  by_cases hvalue : toInt8 (a.dep + 1) = -1
  · -- the distances stay as they are
    have hsame : (a.expand m far).dist = a.dist := by
      funext y
      rw [hdist]
      split_ifs with hy
      · rw [hvalue, ((hmem y).mp hy).1]
      · rfl
    have hnext : toInt8 (-1 + 1) ≠ -1 := by decide
    rw [hsame, hvalue, if_neg hnext, if_pos rfl]
    split_ifs
    · omega
    · omega
  · rw [if_neg hvalue]
    by_cases hempty : (a.expand m far).queue = []
    · have hsame : (a.expand m far).dist = a.dist := by
        funext y
        rw [hdist, if_neg (by rw [hempty]; exact not_mem_nil)]
      rw [hsame]
      split_ifs
      · omega
      · omega
    · obtain ⟨y, hy⟩ := exists_mem_of_ne_nil _ hempty
      obtain ⟨hold, x, -, hadj⟩ := (hmem y).mp hy
      have hless : (U.filter ((a.expand m far).dist · = -1)).card <
          (U.filter (a.dist · = -1)).card := by
        apply Finset.card_lt_card
        refine ssubset_iff_subset_ne.mpr ⟨fun z hz => ?_, fun heq => ?_⟩
        · obtain ⟨hzU, hz⟩ := Finset.mem_filter.mp hz
          refine Finset.mem_filter.mpr ⟨hzU, ?_⟩
          rw [hdist] at hz
          split_ifs at hz with hin
          · exact ((hmem z).mp hin).1
          · exact hz
        · have hin : y ∈ U.filter (a.dist · = -1) := Finset.mem_filter.mpr ⟨hU x y hadj, hold⟩
          rw [← heq] at hin
          have hy' := (Finset.mem_filter.mp hin).2
          rw [hdist, if_pos hy] at hy'
          exact hvalue hy'
      split_ifs
      · omega
      · omega

theorem exists_runLoop_round (hU : ∀ u v, m.Adj u v → v ∈ U) (upper : ℤ) (s t : VertexRecord)
    {fuel : ℕ} (hfuel : 4 * U.card + 4 < fuel) :
    ∃ st, runLoop (round m upper) fuel ⟨.start s, .start t, []⟩ = some st := by
  refine runLoop_returns (fun _ _ _ _ => trivial)
    (fun st => st.src.weight U + st.dst.weight U) (fun st st' _ h => ?_) trivial ?_
  · obtain ⟨-, -, -, ⟨-, hq, rfl⟩ | ⟨-, hq, rfl⟩⟩ := round_eq_some h
    · exact Nat.add_lt_add_right (Side.weight_expand _ hU hq) _
    · exact Nat.add_lt_add_left (Side.weight_expand _ hU hq) _
  · have hs := Side.weight_start U s
    have ht := Side.weight_start U t
    dsimp only
    omega

end

section

variable {s t : VertexRecord} {upper : ℤ} {st st' : Sides}

/-- The source keeps distance 0, and the other side has not reached it before they meet there. -/
structure Sides.Home (s : VertexRecord) (st : Sides) : Prop where
  range : ∀ y, -128 ≤ st.src.dist y ∧ st.src.dist y ≤ 127
  zero : st.src.dist s = 0
  met : st.dst.dist s ≠ -1 → s ∈ st.vec

theorem Sides.home_start (hne : s ≠ t) : Sides.Home s ⟨.start s, .start t, []⟩ where
  range y := by
    simp only [Side.start, update_apply]
    split_ifs
    · decide
    · decide
  zero := by simp [Side.start]
  met h := absurd (by simp [Side.start, hne]) h

theorem Sides.Home.step (h : st.Home s) (hstep : round m upper st = some st') : st'.Home s := by
  obtain ⟨hvec, -, -, ⟨-, -, rfl⟩ | ⟨-, -, rfl⟩⟩ := round_eq_some hstep
  · obtain ⟨hmem, hdist, -, -⟩ := st.src.expand_spec st.dst.dist
    constructor
    · intro y
      rw [hdist]
      split_ifs
      · exact toInt8_mem _
      · exact h.range y
    · rw [hdist, if_neg]
      · exact h.zero
      · intro hs
        have hold := ((hmem s).mp hs).1
        rw [h.zero] at hold
        cases hold
    · intro hdst
      have hs := h.met hdst
      rw [hvec] at hs
      cases hs
  · obtain ⟨hmem, hdist, hmeet, -⟩ := st.dst.expand_spec st.src.dist
    constructor
    · exact h.range
    · exact h.zero
    · intro hdst
      rw [hdist] at hdst
      split_ifs at hdst with hs
      · rw [hmeet]
        exact mem_filter.mpr ⟨hs, by simp [h.zero]⟩
      · have hs' := h.met hdst
        rw [hvec] at hs'
        cases hs'

end

section

variable {s t : VertexRecord} {d : ℕ} {upper : ℤ} {st st' : Sides}

structure Sides.Near (m : Moves VertexRecord (Hop E)) (s t : VertexRecord) (d a b : ℕ)
    (st : Sides) : Prop where
  le : a + b ≤ d
  src : st.src.Ball m s a
  dst : st.dst.Ball m t b
  vec : ∀ x, x ∈ st.vec ↔ m.IsDist s x a ∧ m.IsDist t x b

theorem Sides.near_start (hne : s ≠ t) : Sides.Near m s t d 0 0 ⟨.start s, .start t, []⟩ where
  le := Nat.zero_le d
  src := Side.ball_start s
  dst := Side.ball_start t
  vec x := by
    rw [m.isDist_zero, m.isDist_zero]
    refine ⟨fun h => absurd h not_mem_nil, ?_⟩
    rintro ⟨rfl, h⟩
    exact absurd h hne

/-- The vertices that a round reaches and the other side has reached before are at the sum of the
radii. -/
theorem Side.Ball.mem_vec {near far : Side} {c c' x : VertexRecord} {n n' : ℕ}
    (hnear : near.Ball m c n) (hfar : far.Ball m c' n') (hlt : n < 254) (hle : n' ≤ 254)
    (hmin : ∀ k, m.Joins c x (n + 1) → m.Joins c' x k → n' ≤ k) :
    x ∈ (near.scan m far.dist).vec ↔ m.IsDist c x (n + 1) ∧ m.IsDist c' x n' := by
  rw [(near.expand_spec far.dist).2.2.1, mem_filter, hnear.mem_queue_expand far.dist hlt.le,
    decide_eq_true_eq]
  apply and_congr_right
  intro hx
  constructor
  · intro hreached
    obtain ⟨k, hk, hdist⟩ := hfar.reached x hreached
    have hkn : n' = k := le_antisymm (hmin k hx.1 hdist.1) hk
    rwa [hkn]
  · intro hdist hreached
    exact (hfar.dist_eq_iff hle).mp hreached n' le_rfl hdist

variable (hrev : m.Reversible) (hd : m.IsDist s t d)
include hrev hd

theorem Sides.Near.lt {a b : ℕ} (h : st.Near m s t d a b) (hvec : st.vec = []) : a + b < d := by
  apply lt_of_le_of_ne h.le
  rintro rfl
  obtain ⟨x, hx, hxt⟩ := m.joins_add.mp hd.1
  have hbetween := Moves.Between.of_joins hrev hd hx (hxt.symm hrev) rfl
  have hright := hbetween.right
  rw [Nat.add_sub_cancel_left] at hright
  have hmem := (h.vec x).mpr ⟨hbetween.left, hright⟩
  rw [hvec] at hmem
  cases hmem

theorem Sides.Near.step (hsmall : d ≤ 127) {a b : ℕ} (h : st.Near m s t d a b)
    (hstep : round m upper st = some st') : ∃ a b, st'.Near m s t d a b := by
  obtain ⟨hvec, -, -, ⟨-, -, rfl⟩ | ⟨-, -, rfl⟩⟩ := round_eq_some hstep
  · have hlt := h.lt hrev hd hvec
    refine ⟨a + 1, b, by omega, h.src.expand _ (by omega), h.dst, fun x => ?_⟩
    refine h.src.mem_vec h.dst (by omega) (by omega) fun k hs ht => ?_
    have := hd.2 (m.joins_add.mpr ⟨x, hs, ht.symm hrev⟩)
    omega
  · have hlt := h.lt hrev hd hvec
    refine ⟨a, b + 1, by omega, h.src, h.dst.expand _ (by omega), fun x => ?_⟩
    rw [and_comm]
    refine h.dst.mem_vec h.src (by omega) (by omega) fun k ht hs => ?_
    have := hd.2 (m.joins_add.mpr ⟨x, hs, ht.symm hrev⟩)
    omega

/-- At a small distance the first search ends at the upper bound or with the vertices in the middle
of the shortest paths. -/
theorem near_of_runLoop (hsmall : d ≤ 127) (hne : s ≠ t) {fuel : ℕ}
    (hrun : runLoop (round m upper) fuel ⟨.start s, .start t, []⟩ = some st) :
    st.vec = [] ∧ upper ≤ d ∨
      st.vec ≠ [] ∧ ∃ a b, st.Near m s t d a b ∧ a + b = d := by
  obtain ⟨⟨a, b, hnear⟩, hend⟩ := runLoop_keeps (P := fun st => ∃ a b, st.Near m s t d a b)
    (fun _ _ ⟨a, b, h⟩ hstep => h.step hrev hd hsmall hstep) ⟨0, 0, Sides.near_start hne⟩ hrun
  have hle := hnear.le
  by_cases hvec : st.vec = []
  · refine .inl ⟨hvec, ?_⟩
    have hdep : st.src.dep = a := by rw [hnear.src.dep, toInt8_of_le (by omega)]
    have hdep' : st.dst.dep = b := by rw [hnear.dst.dep, toInt8_of_le (by omega)]
    obtain ⟨x, hx⟩ := hd.exists_at m (i := a) (by omega)
    obtain ⟨y, hy⟩ := (hd.symm hrev).exists_at m (i := b) (by omega)
    rcases round_eq_none hend with h | h | h | h | h
    · omega
    · omega
    · exact absurd hvec h
    · exact absurd ((hnear.src.queue x).mpr hx) (by rw [h]; exact not_mem_nil)
    · exact absurd ((hnear.dst.queue y).mpr hy) (by rw [h]; exact not_mem_nil)
  · refine .inr ⟨hvec, a, b, hnear, le_antisymm hle ?_⟩
    obtain ⟨x, hx⟩ := exists_mem_of_ne_nil _ hvec
    obtain ⟨hs, ht⟩ := (hnear.vec x).mp hx
    exact hd.2 (m.joins_add.mpr ⟨x, hs.1, ht.1.symm hrev⟩)

end

end Neug.Execution
