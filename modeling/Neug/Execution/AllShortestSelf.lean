import Neug.Execution.AllShortestRounds

/-! The search for all shortest paths from a vertex to itself. Both queues start with this vertex, so
the source side is expanded until its queue holds two vertices. Then the destination side takes a
round and meets the neighbours. -/
namespace Neug.Execution
open Neug.Lib List

variable {E : Type} {m : Moves VertexRecord (Hop E)} {s : VertexRecord} {upper : ℤ} {k : ℕ}

/-- One vertex at every distance below `k`. -/
def Narrow (m : Moves VertexRecord (Hop E)) (s : VertexRecord) (k : ℕ) : Prop :=
  ∀ i, 0 < i → i < k → ∃! x, m.IsDist s x i

/-- `k` is the first distance with two vertices. -/
def Fork (m : Moves VertexRecord (Hop E)) (s : VertexRecord) (k : ℕ) : Prop :=
  Narrow m s k ∧ ∃ x y, x ≠ y ∧ m.IsDist s x k ∧ m.IsDist s y k

def TwoHops (m : Moves VertexRecord (Hop E)) (s : VertexRecord) : Prop :=
  ∃ x h h', m.IsDist s x 254 ∧ h ≠ h' ∧ h ∈ m.next x ∧ h' ∈ m.next x ∧
    m.IsDist s (m.target h) 255 ∧ m.IsDist s (m.target h') 255

/-- What gives the source side two entries after 254 distances with one vertex. The vertex at distance
255 is not marked, so that it can be reached again. -/
def LateFork (m : Moves VertexRecord (Hop E)) (s : VertexRecord) : Prop :=
  Narrow m s 255 ∧ (TwoHops m s ∨
    (∃ y z, m.IsDist s y 255 ∧ m.Adj y y ∧ m.IsDist s z 256) ∨
    (∃ z z', z ≠ z' ∧ m.IsDist s z 256 ∧ m.IsDist s z' 256) ∨ ∃ z, m.IsDist s z 257)

def SelfPath (m : Moves VertexRecord (Hop E)) (s : VertexRecord) (upper : ℤ) : Prop :=
  (∃ k ≤ 127, Fork m s k ∧ (k : ℤ) + 1 < upper) ∨
    128 ≤ upper ∧ ((∃ k, 128 ≤ k ∧ k ≤ 254 ∧ Fork m s k) ∨ LateFork m s)

theorem Fork.pos (h : Fork m s k) : 0 < k := by
  apply pos_of_ne_zero
  rintro rfl
  obtain ⟨-, x, y, hne, hx, hy⟩ := h
  exact hne ((m.isDist_zero.mp hx).trans (m.isDist_zero.mp hy).symm)

theorem Narrow.not_fork {n : ℕ} (h : Narrow m s n) (hk : k < n) : ¬ Fork m s k := by
  intro hfork
  obtain ⟨x, y, hne, hx, hy⟩ := hfork.2
  exact hne ((h k hfork.pos hk).unique hx hy)

theorem Fork.unique {k' : ℕ} (h : Fork m s k) (h' : Fork m s k') : k = k' := by
  rcases lt_trichotomy k k' with hlt | heq | hlt
  · exact absurd h (h'.1.not_fork hlt)
  · exact heq
  · exact absurd h' (h.1.not_fork hlt)

theorem Narrow.not_selfPath (h : Narrow m s 255) (hlate : ¬ LateFork m s) :
    ¬ SelfPath m s upper := by
  rintro (⟨k, hk, hfork, -⟩ | ⟨-, ⟨k, -, hk, hfork⟩ | hfork⟩)
  · exact h.not_fork (by omega) hfork
  · exact h.not_fork (by omega) hfork
  · exact hlate hfork

section

variable {a : Side} {x y z : VertexRecord} (far : VertexRecord → ℤ)

/-- The source side with distance 255 in its queue. Nothing was marked in the last round. -/
structure AtEdge (m : Moves VertexRecord (Hop E)) (s : VertexRecord) (a : Side) : Prop where
  dep : a.dep = -1
  dist : ∀ y, a.dist y = -1 ↔ ∀ k ≤ 254, ¬ m.IsDist s y k
  queue : ∀ y, y ∈ a.queue ↔ m.IsDist s y 255
  twoHops : 2 ≤ a.queue.length ↔ TwoHops m s

/-- One hop led to `y` at distance 255. The next round marks the vertices at distance 256, and `y`
over a loop. -/
structure AtWrap (m : Moves VertexRecord (Hop E)) (s y : VertexRecord) (a : Side) : Prop where
  oneHop : ¬ TwoHops m s
  mid : ∀ z, m.IsDist s z 255 ↔ z = y
  dep : a.dep = 0
  dist : ∀ z, a.dist z = -1 ↔ (∀ k ≤ 254, ¬ m.IsDist s z k) ∧ z ∉ a.queue
  queue : ∀ z, z ∈ a.queue ↔ m.IsDist s z 256 ∨ z = y ∧ m.Adj y y
  nodup : a.queue.Nodup

theorem AtWrap.not_lateFork (h : AtWrap m s y a) (hnone : ∀ z, ¬ m.IsDist s z 256) :
    ¬ LateFork m s := by
  rintro ⟨-, hhops | ⟨-, z, -, -, hz⟩ | ⟨z, -, -, hz, -⟩ | ⟨z, hz⟩⟩
  · exact h.oneHop hhops
  · exact hnone z hz
  · exact hnone z hz
  · obtain ⟨u, hu⟩ := hz.exists_at m (i := 256) (by decide)
    exact hnone u hu

/-- The round from the vertex `z` at distance 256 turns back to `y`. -/
structure AtTurn (m : Moves VertexRecord (Hop E)) (s y z : VertexRecord) (a : Side) : Prop where
  oneHop : ¬ TwoHops m s
  mid : ∀ x, m.IsDist s x 255 ↔ x = y
  noLoop : ¬ m.Adj y y
  next : ∀ x, m.IsDist s x 256 ↔ x = z
  dep : a.dep = 1
  dist : ∀ x, a.dist x = -1 → (∀ k ≤ 254, ¬ m.IsDist s x k) ∧ x ≠ z ∧ x ∉ a.queue
  near : ∀ x k, k ≤ 254 → m.IsDist s x k → a.dist x ≠ -1
  queue : ∀ x, x ∈ a.queue ↔ x = y ∨ m.IsDist s x 257
  nodup : a.queue.Nodup

theorem two_le_length {α : Type} {l : List α} (h : l.Nodup) :
    2 ≤ l.length ↔ ∃ x y, x ≠ y ∧ x ∈ l ∧ y ∈ l := by
  constructor
  · intro hlen
    match l, h, hlen with
    | x :: y :: l, h, _ =>
      refine ⟨x, y, ?_, by simp, by simp⟩
      rintro rfl
      simp at h
  · rintro ⟨x, y, hne, hx, hy⟩
    by_contra hlen
    have hle : l.length ≤ 1 := by omega
    match l, hle with
    | [], _ => cases hx
    | [z], _ => exact hne ((mem_singleton.mp hx).trans (mem_singleton.mp hy).symm)

theorem Side.Ball.atEdge (hnext : ∀ x, (m.next x).Nodup) (h : a.Ball m s 254)
    (hx : a.queue = [x]) : AtEdge m s (a.expand m far) := by
  have hvalue : toInt8 (a.dep + 1) = -1 := by
    rw [h.dep]
    decide
  obtain ⟨-, hdist, -, -⟩ := a.expand_spec far
  have hmem : ∀ y, y ∈ (a.expand m far).queue ↔ m.IsDist s y 255 := fun y =>
    h.mem_queue_expand far le_rfl
  have hqueue : (a.expand m far).queue =
      ((m.next x).filter fun h => a.dist (m.target h) = -1).map m.target := by
    have htmp : (a.expand m far).queue = (a.scan m far).tmp := rfl
    rw [htmp, a.scan_eq, hvalue, tmp_foldl_visit, Side.neighbours, hx,
      flatMap_singleton, List.filter_map]
    rfl
  have hhop : ∀ b, b ∈ (m.next x).filter (fun h => a.dist (m.target h) = -1) ↔
      b ∈ m.next x ∧ m.IsDist s (m.target b) 255 := by
    intro b
    rw [mem_filter, decide_eq_true_eq]
    apply and_congr_right
    intro hb
    rw [← hmem, (a.expand_spec far).1, hx]
    exact ⟨fun h => ⟨h, x, mem_singleton_self x, b, hb, rfl⟩, And.left⟩
  have hxd : m.IsDist s x 254 := (h.queue x).mp (by rw [hx]; exact mem_singleton_self x)
  constructor
  · exact hvalue
  · intro y
    rw [← h.dist_eq_iff le_rfl, hdist, hvalue]
    split_ifs with hy
    · exact ⟨fun _ => (((a.expand_spec far).1 y).mp hy).1, fun _ => rfl⟩
    · exact .rfl
  · exact hmem
  · rw [hqueue, length_map, two_le_length ((hnext x).filter _)]
    simp only [hhop]
    constructor
    · rintro ⟨b, b', hne, ⟨hb, hd⟩, hb', hd'⟩
      exact ⟨x, b, b', hxd, hne, hb, hb', hd, hd'⟩
    · rintro ⟨u, b, b', hu, hne, hb, hb', hd, hd'⟩
      have hux : u = x := by
        have hin := (h.queue u).mpr hu
        rw [hx] at hin
        exact mem_singleton.mp hin
      rw [hux] at hb hb'
      exact ⟨b, b', hne, ⟨hb, hd⟩, hb', hd'⟩

section

variable (hrev : m.Reversible)
include hrev

/-- A vertex next to one at distance `i` is at distance `i - 1`, `i` or `i + 1`. -/
theorem exists_dist_of_adj {i : ℕ} (hx : m.IsDist s x i) (hadj : m.Adj x z) :
    ∃ k, m.IsDist s z k ∧ k ≤ i + 1 ∧ i ≤ k + 1 := by
  have hjoin : m.Joins s z (i + 1) := m.joins_succ.mpr ⟨x, hx.1, hadj⟩
  obtain ⟨k, hk, hz⟩ := hjoin.exists_isDist
  exact ⟨k, hz, hk, hz.adj_le m (hrev x z hadj) hx⟩

theorem AtEdge.atWrap (h : AtEdge m s a) (hy : a.queue = [y]) : AtWrap m s y (a.expand m far) := by
  obtain ⟨hmem, hdist, -, hnodup⟩ := a.expand_spec far
  have hzero : toInt8 (-1 + 1) = 0 := by decide
  have hmid : ∀ z, m.IsDist s z 255 ↔ z = y := by
    intro z
    rw [← h.queue, hy, mem_singleton]
  have hyd : m.IsDist s y 255 := (hmid y).mpr rfl
  constructor
  · rw [← h.twoHops, hy]
    simp
  · exact hmid
  · have hdep : (a.expand m far).dep = toInt8 (a.dep + 1) := rfl
    rw [hdep, h.dep, hzero]
  · intro z
    rw [hdist, h.dep, ← h.dist]
    split_ifs with hz
    · exact ⟨fun heq => absurd heq (by decide), fun hin => absurd hz hin.2⟩
    · exact ⟨fun heq => ⟨heq, hz⟩, And.left⟩
  · intro z
    rw [hmem, h.dist, hy]
    simp only [mem_singleton, exists_eq_left]
    constructor
    · rintro ⟨hfar, hadj⟩
      obtain ⟨k, hz, hle, hge⟩ := exists_dist_of_adj hrev hyd hadj
      have hlt : 254 < k := by
        by_contra hk
        exact hfar k (by omega) hz
      obtain rfl | rfl : k = 255 ∨ k = 256 := by omega
      · obtain rfl := (hmid z).mp hz
        exact .inr ⟨rfl, hadj⟩
      · exact .inl hz
    · rintro (hz | ⟨rfl, hadj⟩)
      · obtain ⟨u, hu, hadj⟩ := hz.pred
        obtain rfl := (hmid u).mp hu
        refine ⟨fun k hk hd => ?_, hadj⟩
        have := hz.unique _ hd
        omega
      · refine ⟨fun k hk hd => ?_, hadj⟩
        have := hyd.unique _ hd
        omega
  · apply hnodup
    rw [h.dep]
    decide

theorem AtWrap.dead_of_loop (h : AtWrap m s y a) (hloop : m.Adj y y)
    (hx : a.queue = [x]) : (a.expand m far).queue = [] ∧ ∀ z, ¬ m.IsDist s z 256 := by
  have hyd : m.IsDist s y 255 := (h.mid y).mpr rfl
  have hyx : x = y := by
    have hin := (h.queue y).mpr (.inr ⟨rfl, hloop⟩)
    rw [hx] at hin
    exact (mem_singleton.mp hin).symm
  subst hyx
  have hnone : ∀ z, ¬ m.IsDist s z 256 := by
    intro z hz
    have hin := (h.queue z).mpr (.inl hz)
    rw [hx] at hin
    rw [mem_singleton.mp hin] at hz
    exact absurd (hz.unique _ hyd) (by decide)
  refine ⟨eq_nil_iff_forall_not_mem.mpr fun z hz => ?_, hnone⟩
  obtain ⟨hold, u, hu, hadj⟩ := ((a.expand_spec far).1 z).mp hz
  rw [hx, mem_singleton] at hu
  subst hu
  obtain ⟨hfar, hnew⟩ := (h.dist z).mp hold
  obtain ⟨k, hk, hle, hge⟩ := exists_dist_of_adj hrev hyd hadj
  have hlt : 254 < k := by
    by_contra hle
    exact hfar k (by omega) hk
  obtain rfl | rfl : k = 255 ∨ k = 256 := by omega
  · rw [(h.mid z).mp hk, hx] at hnew
    exact hnew (mem_singleton_self _)
  · exact hnone z hk

theorem AtWrap.atTurn (h : AtWrap m s y a) (hloop : ¬ m.Adj y y)
    (hx : a.queue = [x]) : AtTurn m s y x (a.expand m far) := by
  obtain ⟨hmem, hdist, -, hnodup⟩ := a.expand_spec far
  have hone : toInt8 (0 + 1) = 1 := by decide
  have hyd : m.IsDist s y 255 := (h.mid y).mpr rfl
  have hnext : ∀ z, m.IsDist s z 256 ↔ z = x := by
    intro z
    have hin := h.queue z
    rw [hx, mem_singleton] at hin
    rw [hin]
    exact ⟨.inl, fun hz => hz.resolve_right fun hz => hloop hz.2⟩
  have hxd : m.IsDist s x 256 := (hnext x).mpr rfl
  have hqueue : ∀ z, z ∈ (a.expand m far).queue ↔ z = y ∨ m.IsDist s z 257 := by
    intro z
    rw [hmem, h.dist, hx]
    simp only [mem_singleton, exists_eq_left]
    constructor
    · rintro ⟨⟨hfar, hne⟩, hadj⟩
      obtain ⟨k, hz, hle, hge⟩ := exists_dist_of_adj hrev hxd hadj
      obtain rfl | rfl | rfl : k = 255 ∨ k = 256 ∨ k = 257 := by omega
      · exact .inl ((h.mid z).mp hz)
      · exact absurd ((hnext z).mp hz) hne
      · exact .inr hz
    · rintro (rfl | hz)
      · -- the way back to the vertex at distance 255
        obtain ⟨u, hu, hadj⟩ := hxd.pred
        obtain rfl := (h.mid u).mp hu
        refine ⟨⟨fun k hk hd => ?_, ?_⟩, hrev _ _ hadj⟩
        · have := hyd.unique _ hd
          omega
        · rintro rfl
          exact absurd (hyd.unique _ hxd) (by decide)
      · obtain ⟨u, hu, hadj⟩ := hz.pred
        obtain rfl := (hnext u).mp hu
        refine ⟨⟨fun k hk hd => ?_, ?_⟩, hadj⟩
        · have := hz.unique _ hd
          omega
        · rintro rfl
          exact absurd (hz.unique _ hxd) (by decide)
  constructor
  · exact h.oneHop
  · exact h.mid
  · exact hloop
  · exact hnext
  · have hdep : (a.expand m far).dep = toInt8 (a.dep + 1) := rfl
    rw [hdep, h.dep, hone]
  · intro z hz
    rw [hdist, h.dep, hone] at hz
    split_ifs at hz with hin
    obtain ⟨hfar, hold⟩ := (h.dist z).mp hz
    rw [hx, mem_singleton] at hold
    exact ⟨hfar, hold, hin⟩
  · intro z k hk hd hz
    rw [hdist, h.dep, hone] at hz
    split_ifs at hz with hin
    exact ((h.dist z).mp hz).1 k hk hd
  · exact hqueue
  · apply hnodup
    rw [h.dep]
    decide

theorem AtTurn.dead (h : AtTurn m s y z a) (hx : a.queue = [x]) :
    (a.expand m far).queue = [] ∧ ∀ u, ¬ m.IsDist s u 257 := by
  have hyd : m.IsDist s y 255 := (h.mid y).mpr rfl
  have hyx : x = y := by
    have hin := (h.queue y).mpr (.inl rfl)
    rw [hx] at hin
    exact (mem_singleton.mp hin).symm
  subst hyx
  refine ⟨eq_nil_iff_forall_not_mem.mpr fun u hu => ?_, fun u hu => ?_⟩
  · obtain ⟨hold, v, hv, hadj⟩ := ((a.expand_spec far).1 u).mp hu
    rw [hx, mem_singleton] at hv
    subst hv
    obtain ⟨hfar, hne, hnew⟩ := h.dist u hold
    obtain ⟨k, hk, hle, hge⟩ := exists_dist_of_adj hrev hyd hadj
    have hlt : 254 < k := by
      by_contra hle
      exact hfar k (by omega) hk
    obtain rfl | rfl : k = 255 ∨ k = 256 := by omega
    · rw [(h.mid u).mp hk, hx] at hnew
      exact hnew (mem_singleton_self _)
    · exact hne ((h.next u).mp hk)
  · have hin := (h.queue u).mpr (.inr hu)
    rw [hx] at hin
    rw [mem_singleton.mp hin] at hu
    exact absurd (hu.unique _ hyd) (by decide)

end

end

section

variable {a : Side} {x : VertexRecord} (far : VertexRecord → ℤ) {st st' : Sides}

inductive SelfState (m : Moves VertexRecord (Hop E)) (s : VertexRecord) (upper : ℤ) (a : Side) : Prop
  | grow (k : ℕ) (hk : k ≤ 254) (ball : a.Ball m s k) (narrow : Narrow m s k)
      (below : ∀ i < k, toInt8 i < upper)
  | edge (narrow : Narrow m s 255) (hupper : 128 ≤ upper) (h : AtEdge m s a)
  | wrap (narrow : Narrow m s 255) (hupper : 128 ≤ upper) (y : VertexRecord) (h : AtWrap m s y a)
  | turn (narrow : Narrow m s 255) (hupper : 128 ≤ upper) (y z : VertexRecord)
      (h : AtTurn m s y z a)
  | dead (hempty : a.queue = []) (h : ¬ SelfPath m s upper)

theorem SelfState.expand (hrev : m.Reversible) (hnext : ∀ x, (m.next x).Nodup)
    (h : SelfState m s upper a) (hx : a.queue = [x]) (hdep : a.dep < upper) :
    SelfState m s upper (a.expand m far) := by
  cases h with
  | grow k hk ball narrow below =>
    have hbelow : ∀ i < k + 1, toInt8 i < upper := by
      intro i hi
      obtain hlt | rfl := Nat.lt_succ_iff_lt_or_eq.mp hi
      · exact below i hlt
      · rwa [← ball.dep]
    have hnarrow : Narrow m s (k + 1) := by
      intro i hpos hi
      obtain hlt | rfl := Nat.lt_succ_iff_lt_or_eq.mp hi
      · exact narrow i hpos hlt
      · have hqueue := ball.queue
        simp only [hx, mem_singleton] at hqueue
        exact ⟨x, (hqueue x).mp rfl, fun y hy => (hqueue y).mpr hy⟩
    obtain hlt | rfl := lt_or_eq_of_le hk
    · exact .grow (k + 1) hlt (ball.expand far hlt) hnarrow hbelow
    · have hlast := hbelow 127 (by decide)
      rw [toInt8_of_le le_rfl] at hlast
      exact .edge hnarrow (by omega) (ball.atEdge far hnext hx)
  | edge narrow hupper h => exact .wrap narrow hupper x (h.atWrap far hrev hx)
  | wrap narrow hupper y h =>
    by_cases hloop : m.Adj y y
    · obtain ⟨hempty, hnone⟩ := h.dead_of_loop far hrev hloop hx
      exact .dead hempty (narrow.not_selfPath (h.not_lateFork hnone))
    · exact .turn narrow hupper y x (h.atTurn far hrev hloop hx)
  | turn narrow hupper y z h =>
    obtain ⟨hempty, hnone⟩ := h.dead far hrev hx
    refine .dead hempty (narrow.not_selfPath ?_)
    rintro ⟨-, hhops | ⟨y', -, hy', hloop, -⟩ | ⟨u, u', hne, hu, hu'⟩ | ⟨u, hu⟩⟩
    · exact h.oneHop hhops
    · rw [(h.mid y').mp hy'] at hloop
      exact h.noLoop hloop
    · exact hne (((h.next u).mp hu).trans ((h.next u').mp hu').symm)
    · exact hnone u hu
  | dead hempty h =>
    rw [hempty] at hx
    cases hx

theorem SelfState.dist_ne (h : SelfState m s upper a) (hqueue : a.queue ≠ []) : a.dist s ≠ -1 := by
  have hs : m.IsDist s s 0 := m.isDist_self s
  cases h with
  | grow k hk ball _ _ =>
    rw [ball.dist s 0 (Nat.zero_le k) hs]
    decide
  | edge _ _ h => exact fun heq => (h.dist s).mp heq 0 (by decide) hs
  | wrap _ _ y h => exact fun heq => ((h.dist s).mp heq).1 0 (by decide) hs
  | turn _ _ y z h => exact h.near s 0 (by decide) hs
  | dead hempty _ => exact absurd hempty hqueue

def ForkCause (m : Moves VertexRecord (Hop E)) (s : VertexRecord) (upper dep : ℤ) : Prop :=
  (∃ k ≤ 254, Fork m s k ∧ dep = toInt8 k ∧ ∀ i ≤ k, toInt8 i < upper) ∨
    LateFork m s ∧ 128 ≤ upper ∧ dep + 1 < upper

theorem SelfState.fork (h : SelfState m s upper a) (hlen : 2 ≤ a.queue.length)
    (hdep : a.dep < upper) : ForkCause m s upper a.dep ∧
      (∀ y, m.IsDist s y 1 → a.dist y ≠ -1) ∧ ∃ y, m.IsDist s y 1 := by
  have hone : Narrow m s 255 → ∃ y, m.IsDist s y 1 := fun narrow =>
    (narrow 1 (by decide) (by decide)).exists
  cases h with
  | grow k hk ball narrow below =>
    obtain ⟨x, y, hne, hx, hy⟩ := (two_le_length ball.nodup).mp hlen
    have hfork : Fork m s k := ⟨narrow, x, y, hne, (ball.queue x).mp hx, (ball.queue y).mp hy⟩
    have hpos := hfork.pos
    refine ⟨.inl ⟨k, hk, hfork, ball.dep, fun i hi => ?_⟩, fun y hy => ?_,
      ((ball.queue x).mp hx).exists_at m hpos⟩
    · obtain hlt | rfl := lt_or_eq_of_le hi
      · exact below i hlt
      · rwa [← ball.dep]
    · rw [ball.dist y 1 hpos hy]
      decide
  | edge narrow hupper h =>
    refine ⟨.inr ⟨⟨narrow, .inl (h.twoHops.mp hlen)⟩, hupper, ?_⟩,
      fun y hy heq => (h.dist y).mp heq 1 (by decide) hy, hone narrow⟩
    rw [h.dep]
    omega
  | wrap narrow hupper y h =>
    have hyd : m.IsDist s y 255 := (h.mid y).mpr rfl
    refine ⟨.inr ⟨⟨narrow, ?_⟩, hupper, ?_⟩,
      fun y hy heq => ((h.dist y).mp heq).1 1 (by decide) hy, hone narrow⟩
    · obtain ⟨u, v, hne, hu, hv⟩ := (two_le_length h.nodup).mp hlen
      rcases (h.queue u).mp hu with hu | ⟨rfl, hloop⟩
      · rcases (h.queue v).mp hv with hv | ⟨rfl, hloop⟩
        · exact .inr (.inr (.inl ⟨u, v, hne, hu, hv⟩))
        · exact .inr (.inl ⟨v, u, hyd, hloop, hu⟩)
      · rcases (h.queue v).mp hv with hv | ⟨rfl, -⟩
        · exact .inr (.inl ⟨u, v, hyd, hloop, hv⟩)
        · exact absurd rfl hne
    · rw [h.dep]
      omega
  | turn narrow hupper y z h =>
    refine ⟨.inr ⟨⟨narrow, .inr (.inr (.inr ?_))⟩, hupper, ?_⟩,
      fun y hy => h.near y 1 (by decide) hy, hone narrow⟩
    · obtain ⟨u, v, hne, hu, hv⟩ := (two_le_length h.nodup).mp hlen
      rcases (h.queue u).mp hu with rfl | hu
      · exact ⟨v, ((h.queue v).mp hv).resolve_left hne.symm⟩
      · exact ⟨u, hu⟩
    · rw [h.dep]
      omega
  | dead hempty h =>
    rw [hempty] at hlen
    cases hlen

structure Single (m : Moves VertexRecord (Hop E)) (s : VertexRecord) (upper : ℤ) (st : Sides) :
    Prop where
  dst : st.dst = .start s
  vec : st.vec = []
  src : SelfState m s upper st.src

structure Forked (m : Moves VertexRecord (Hop E)) (s : VertexRecord) (upper : ℤ) (st : Sides) :
    Prop where
  dst : st.dst.dep = 1
  vec : st.vec ≠ []
  cause : ForkCause m s upper st.src.dep

theorem Single.step (hrev : m.Reversible) (hnext : ∀ x, (m.next x).Nodup)
    (h : Single m s upper st) (hstep : round m upper st = some st') :
    Single m s upper st' ∨ Forked m s upper st' := by
  have hdstq : st.dst.queue = [s] := by rw [h.dst]; rfl
  obtain ⟨-, hdep, -, ⟨hlen, hne, rfl⟩ | ⟨hlen, -, rfl⟩⟩ := round_eq_some hstep
  · rw [hdstq] at hlen
    obtain ⟨x, hx⟩ := length_eq_one_iff.mp (le_antisymm hlen (length_pos_iff.mpr hne))
    refine .inl ⟨h.dst, ?_, h.src.expand _ hrev hnext hx hdep⟩
    -- the destination side has reached only the vertex itself
    rw [(st.src.expand_spec _).2.2.1, h.dst]
    refine filter_eq_nil_iff.mpr fun y hy hfar => ?_
    have hys : y = s := by
      by_contra hys
      simp [Side.start, hys] at hfar
    rw [hys] at hy
    exact h.src.dist_ne hne (((st.src.expand_spec _).1 s).mp hy).1
  · rw [hdstq] at hlen
    obtain ⟨hcause, hnear, y, hy⟩ := h.src.fork hlen hdep
    have hball : st.dst.Ball m s 0 := by
      rw [h.dst]
      exact Side.ball_start s
    refine .inr ⟨?_, ne_nil_of_mem (a := y) ?_, hcause⟩
    · exact (hball.expand st.src.dist (by decide)).dep
    · dsimp only
      rw [(st.dst.expand_spec _).2.2.1]
      refine mem_filter.mpr ⟨(hball.mem_queue_expand _ (by decide)).mpr hy, ?_⟩
      simpa using hnear y hy

theorem SelfState.not_selfPath (h : SelfState m s upper a)
    (hend : upper ≤ a.dep ∨ upper ≤ 0 ∨ a.queue = []) : ¬ SelfPath m s upper := by
  cases h with
  | grow k hk ball narrow below =>
    have hqueue : a.queue = [] → ∀ x, ¬ m.IsDist s x k := by
      intro hempty x hx
      have hin := (ball.queue x).mpr hx
      rw [hempty] at hin
      cases hin
    -- a later fork needs a vertex at every distance before
    have hfork : ∀ k', Fork m s k' → k ≤ k' ∧ ∃ x, m.IsDist s x k := by
      intro k' hfork
      have hle : k ≤ k' := not_lt.mp fun hlt => narrow.not_fork hlt hfork
      obtain ⟨x, -, -, hx, -⟩ := hfork.2
      exact ⟨hle, hx.exists_at m hle⟩
    have hdep := toInt8_mem k
    rw [ball.dep] at hend
    rintro (⟨k', hk', hk'fork, hlt⟩ | ⟨hupper, hlate⟩)
    · obtain ⟨hle, x, hx⟩ := hfork k' hk'fork
      rw [toInt8_of_le (by omega)] at hend
      rcases hend with h | h | h
      · omega
      · omega
      · exact hqueue h x hx
    · obtain ⟨x, hx⟩ : ∃ x, m.IsDist s x k := by
        rcases hlate with ⟨k', -, -, hk'⟩ | hlate
        · exact (hfork k' hk').2
        · rcases eq_zero_or_pos k with rfl | hpos
          · exact ⟨s, m.isDist_self s⟩
          · exact (hlate.1 k hpos (by omega)).exists
      rcases hend with h | h | h
      · omega
      · omega
      · exact hqueue h x hx
  | edge narrow hupper h =>
    have hempty : a.queue = [] := by
      have hdep := h.dep
      rcases hend with h | h | h
      · omega
      · omega
      · exact h
    have hnone : ∀ x, ¬ m.IsDist s x 255 := by
      intro x hx
      have hin := (h.queue x).mpr hx
      rw [hempty] at hin
      cases hin
    have hlater : ∀ x n, 255 ≤ n → ¬ m.IsDist s x n := by
      intro x n hn hx
      obtain ⟨u, hu⟩ := hx.exists_at m hn
      exact hnone u hu
    apply narrow.not_selfPath
    rintro ⟨-, ⟨_, h, _, _, _, _, _, hd, _⟩ | ⟨y, z, hd, -⟩ | ⟨z, -, -, hd, -⟩ | ⟨z, hd⟩⟩
    · exact hnone _ hd
    · exact hnone _ hd
    · exact hlater _ 256 (by decide) hd
    · exact hlater _ 257 (by decide) hd
  | wrap narrow hupper y h =>
    have hempty : a.queue = [] := by
      have hdep := h.dep
      rcases hend with h | h | h
      · omega
      · omega
      · exact h
    have hnone : ∀ x, ¬ m.IsDist s x 256 := by
      intro x hx
      have hin := (h.queue x).mpr (.inl hx)
      rw [hempty] at hin
      cases hin
    exact narrow.not_selfPath (h.not_lateFork hnone)
  | turn narrow hupper y z h =>
    have hdep := h.dep
    have hin := (h.queue y).mpr (.inl rfl)
    rcases hend with hend | hend | hend
    · omega
    · omega
    · rw [hend] at hin
      cases hin
  | dead _ h => exact h

/-- With a fork the empty path is found if the sum of the two depths is below the bound. -/
theorem ForkCause.selfPath_iff {dep : ℤ} (h : ForkCause m s upper dep) :
    SelfPath m s upper ↔ dep + 1 < upper := by
  rcases h with ⟨k, hk, hfork, hdep, hbelow⟩ | ⟨hlate, hupper, hlt⟩
  · by_cases hsmall : k ≤ 127
    · rw [hdep, toInt8_of_le hsmall]
      constructor
      · rintro (⟨k', -, hfork', hlt⟩ | ⟨-, ⟨k', hk', -, hfork'⟩ | hlate⟩)
        · rwa [hfork.unique hfork']
        · have := hfork.unique hfork'
          omega
        · exact absurd hfork (hlate.1.not_fork (by omega))
      · exact fun hlt => .inl ⟨k, hsmall, hfork, hlt⟩
    · have hlast := hbelow 127 (by omega)
      rw [toInt8_of_le le_rfl] at hlast
      rw [hdep, toInt8_of_gt (by omega) (by omega)]
      refine ⟨fun _ => by omega, fun _ => .inr ⟨by omega, .inl ⟨k, by omega, hk, hfork⟩⟩⟩
  · exact ⟨fun _ => hlt, fun _ => .inr ⟨hupper, .inr hlate⟩⟩

/-- The search from a vertex to itself meets where `SelfPath` says, and else finds nothing. -/
theorem self_of_runLoop (hrev : m.Reversible) (hnext : ∀ x, (m.next x).Nodup) {fuel : ℕ}
    (hrun : runLoop (round m upper) fuel ⟨.start s, .start s, []⟩ = some st) :
    SelfPath m s upper ↔ st.vec ≠ [] ∧ st.src.dep + st.dst.dep < upper := by
  have hstart : Single m s upper ⟨.start s, .start s, []⟩ :=
    ⟨rfl, rfl, .grow 0 (by decide) (Side.ball_start s) (fun i _ hi => absurd hi (Nat.not_lt_zero i))
      fun i hi => absurd hi (Nat.not_lt_zero i)⟩
  have hkeep : ∀ st st', Single m s upper st ∨ Forked m s upper st → round m upper st = some st' →
      Single m s upper st' ∨ Forked m s upper st' := by
    rintro st st' (hst | hst) hstep
    · exact hst.step hrev hnext hstep
    · exact absurd (round_eq_some hstep).1 hst.vec
  obtain ⟨hst | hst, hend⟩ := runLoop_keeps hkeep (.inl hstart) hrun
  · refine ⟨fun hself => absurd hself (hst.src.not_selfPath ?_), fun h => absurd hst.vec h.1⟩
    have hend' := round_eq_none hend
    rw [hst.dst] at hend'
    rcases hend' with h | h | h | h | h
    · exact .inl h
    · exact .inr (.inl h)
    · exact absurd hst.vec h
    · exact .inr (.inr h)
    · cases h
  · have hdep := hst.dst
    refine hst.cause.selfPath_iff.trans ⟨fun h => ⟨hst.vec, by omega⟩, fun h => ?_⟩
    omega

end

end Neug.Execution
