import Neug.Execution.PairSearch

/-! The search from both ends finds a shortest path. Each side has reached a ball around its end,
and the first edge between the two balls is the middle of a shortest path. -/
namespace Neug.Execution
open Neug.Lib List Option

variable {E : Type} {m : Moves VertexRecord (Hop E)}

section

variable {sign value : ℤ} {q : List VertexRecord} {old st : PairState} {x y : VertexRecord}

/-- `st` comes from `old` by reaching some of the neighbours of the queue with a new distance. -/
structure Scanned (m : Moves VertexRecord (Hop E)) (q : List VertexRecord) (value : ℤ)
    (old st : PairState) : Prop where
  keep : ∀ y, old.dis y ≠ 0 → st.dis y = old.dis y ∧ st.pre y = old.pre y
  fresh : ∀ y, old.dis y = 0 →
    st.dis y = 0 ∨ st.dis y = value ∧ ∃ x ∈ q, st.pre y = some x ∧ m.Adj x y
  mem_tmp : ∀ y, y ∈ st.tmp ↔ old.dis y = 0 ∧ st.dis y ≠ 0

theorem Scanned.start (old : PairState) (h : old.tmp = []) : Scanned m q value old old where
  keep _ _ := ⟨rfl, rfl⟩
  fresh _ hy := .inl hy
  mem_tmp y := by
    rw [h]
    exact ⟨fun hy => absurd hy not_mem_nil, fun hy => absurd hy.1 hy.2⟩

theorem Scanned.reach (h : Scanned m q value old st) (hvalue : value ≠ 0) (hx : x ∈ q)
    (hadj : m.Adj x y) (hy : st.dis y = 0) : Scanned m q value old (st.reach x y value) := by
  have hold : old.dis y = 0 := by
    by_contra hne
    exact hne ((h.keep y hne).1.symm.trans hy)
  constructor
  · intro z hz
    have hne : z ≠ y := fun heq => hz (heq ▸ hold)
    rw [st.dis_reach_of_ne x value hne, st.pre_reach_of_ne x value hne]
    exact h.keep z hz
  · intro z hz
    by_cases heq : z = y
    · subst heq
      exact .inr ⟨st.dis_reach_self x value, x, hx, st.pre_reach_self x value, hadj⟩
    · rw [st.dis_reach_of_ne x value heq, st.pre_reach_of_ne x value heq]
      exact h.fresh z hz
  · intro z
    rw [st.tmp_reach, mem_append, mem_singleton, h.mem_tmp]
    by_cases heq : z = y
    · subst heq
      rw [st.dis_reach_self]
      exact ⟨fun _ => ⟨hold, hvalue⟩, fun _ => .inr rfl⟩
    · rw [st.dis_reach_of_ne x value heq]
      exact ⟨fun hz => hz.resolve_right heq, .inl⟩

/-- The loop over edges of a vertex of the queue: all of them lead to vertices of this side in the
end, or it ends at an edge to the other side. -/
theorem scanEdges_spec (hsign : sign = 1 ∨ sign = -1) (hvalue : 0 < sign * value) (hx : x ∈ q)
    (hops : List (Hop E)) (hsub : hops ⊆ m.next x) (h : Scanned m q value old st)
    (hval : st.dis x + sign = value) (hx0 : st.dis x ≠ 0) :
    (∃ st', scanEdges m sign x hops st = (st', none) ∧ Scanned m q value old st' ∧
      (∀ y, st.dis y ≠ 0 → st'.dis y = st.dis y) ∧
      ∀ h ∈ hops, 0 < sign * st'.dis (m.target h)) ∨
    ∃ st' y, scanEdges m sign x hops st = (st', some y) ∧ Scanned m q value old st' ∧
      m.Adj x y ∧ sign * old.dis y < 0 := by
  have hne : value ≠ 0 := by
    rintro rfl
    simp at hvalue
  induction hops generalizing st with
  | nil => exact .inl ⟨st, rfl, h, fun _ _ => rfl, fun _ hh => absurd hh not_mem_nil⟩
  | cons hop hops ih =>
    obtain ⟨hhop, hsub⟩ := cons_subset.mp hsub
    have hadj : m.Adj x (m.target hop) := ⟨hop, hhop, rfl⟩
    rw [scanEdges, hval]
    split_ifs with hzero hother
    · have hxne : x ≠ m.target hop := fun heq => hx0 (heq ▸ hzero)
      rcases ih hsub (h.reach hne hx hadj hzero) (by rwa [st.dis_reach_of_ne x _ hxne])
        (by rwa [st.dis_reach_of_ne x _ hxne]) with ⟨st', heq, hscan, hkeep, hall⟩ | hmet
      · refine .inl ⟨st', heq, hscan, fun y hy => ?_, fun z hz => ?_⟩
        · have hyne : y ≠ m.target hop := fun heq => hy (heq ▸ hzero)
          rw [hkeep y (by rwa [st.dis_reach_of_ne x _ hyne]), st.dis_reach_of_ne x _ hyne]
        · rcases mem_cons.mp hz with rfl | hz
          · rw [hkeep _ (by rwa [st.dis_reach_self]), st.dis_reach_self]
            exact hvalue
          · exact hall z hz
      · exact .inr hmet
    · refine .inr ⟨st, _, rfl, h, hadj, ?_⟩
      by_cases hold : old.dis (m.target hop) = 0
      · rcases h.fresh _ hold with h0 | ⟨hv, -⟩
        · exact absurd h0 hzero
        · rw [hv] at hother
          omega
      · rwa [← (h.keep _ hold).1]
    · rcases ih hsub h hval hx0 with ⟨st', heq, hscan, hkeep, hall⟩ | hmet
      · refine .inl ⟨st', heq, hscan, hkeep, fun z hz => ?_⟩
        rcases mem_cons.mp hz with rfl | hz
        · rw [hkeep _ hzero]
          rcases hsign with rfl | rfl <;> omega
        · exact hall z hz
      · exact .inr hmet

/-- The loop over a queue whose vertices have one distance, below the bound: every neighbour is
reached by this side, or the loop ends at an edge to the other side. -/
theorem drain_spec (hsign : sign = 1 ∨ sign = -1) {dist : ℤ} (hdist : 0 < sign * dist)
    {past : ℤ → Bool} (hpast : past dist = false) (queue : List VertexRecord)
    (hqueue : ∀ x ∈ queue, x ∈ q ∧ old.dis x = dist) (h : Scanned m q (dist + sign) old st) :
    (∃ st', drain m sign past queue st = .done st' ∧ Scanned m q (dist + sign) old st' ∧
      (∀ y, st.dis y ≠ 0 → st'.dis y = st.dis y) ∧
      ∀ x ∈ queue, ∀ y, m.Adj x y → 0 < sign * st'.dis y) ∨
    ∃ x y st', drain m sign past queue st = .met x y st' ∧ Scanned m q (dist + sign) old st' ∧
      x ∈ q ∧ m.Adj x y ∧ sign * old.dis y < 0 := by
  have hvalue : 0 < sign * (dist + sign) := by rcases hsign with rfl | rfl <;> omega
  have hne : dist ≠ 0 := by
    rintro rfl
    simp at hdist
  induction queue generalizing st with
  | nil => exact .inl ⟨st, rfl, h, fun _ _ => rfl, fun x hx => absurd hx not_mem_nil⟩
  | cons x queue ih =>
    obtain ⟨hxq, hxold⟩ := hqueue x mem_cons_self
    have hxdis : st.dis x = dist := (h.keep x (by rw [hxold]; exact hne)).1.trans hxold
    rw [drain, hxdis, if_neg (by rw [hpast]; exact Bool.false_ne_true)]
    rcases scanEdges_spec hsign hvalue hxq (m.next x) (List.Subset.refl _) h (by rw [hxdis])
      (by rwa [hxdis]) with ⟨st₁, heq, hscan, hkeep, hedges⟩ | ⟨st₁, y, heq, hscan, hadj, hother⟩
    · rw [heq]
      rcases ih (fun z hz => hqueue z (mem_cons_of_mem _ hz)) hscan with
        ⟨st', hdone, hscan', hkeep', hall⟩ | hmet
      · refine .inl ⟨st', hdone, hscan', fun y hy => ?_, fun z hz y hy => ?_⟩
        · rw [hkeep' y (by rwa [hkeep y hy]), hkeep y hy]
        · rcases mem_cons.mp hz with rfl | hz
          · obtain ⟨hop, hhop, rfl⟩ := hy
            have hpos := hedges hop hhop
            rwa [hkeep' _ (right_ne_zero_of_mul hpos.ne')]
          · exact hall z hz y hy
      · exact .inr hmet
    · rw [heq]
      exact .inr ⟨x, y, st₁, rfl, hscan, hxq, hadj, hother⟩

theorem drain_tooFar {past : ℤ → Bool} (hq : q ≠ []) (hpast : ∀ x ∈ q, past (st.dis x) = true) :
    drain m sign past q st = .tooFar := by
  cases q with
  | nil => exact absurd rfl hq
  | cons x q => rw [drain, if_pos (hpast x mem_cons_self)]

end

structure Ancestry (m : Moves VertexRecord (Hop E)) (c : VertexRecord) (n : ℕ)
    (pre : VertexRecord → Option VertexRecord) : Prop where
  root : pre c = none
  parent : ∀ x i, m.IsDist c x (i + 1) → i + 1 ≤ n →
    ∃ u, pre x = some u ∧ m.IsDist c u i ∧ m.Adj u x

/-- The side of `sign` with the end `c` has reached the vertices up to distance `n`, and its queue
holds those at distance `n`. -/
structure Ball (m : Moves VertexRecord (Hop E)) (sign : ℤ) (c : VertexRecord) (n : ℕ)
    (q : List VertexRecord) (st : PairState) : Prop where
  dist_of_pos : ∀ x, 0 < sign * st.dis x → ∃ i ≤ n, m.IsDist c x i
  dis_eq : ∀ x i, m.IsDist c x i → i ≤ n → sign * st.dis x = i + 1
  mem_queue : ∀ x, x ∈ q ↔ m.IsDist c x n
  ancestry : Ancestry m c n st.pre

section

variable {sign value : ℤ} {c c' x y : VertexRecord} {n n' : ℕ} {q q' : List VertexRecord}
  {old st : PairState}

theorem Ball.dis_ne (h : Ball m sign c n q st) {i : ℕ} (hd : m.IsDist c x i) (hi : i ≤ n) :
    st.dis x ≠ 0 := by
  intro h0
  have hdis := h.dis_eq x i hd hi
  rw [h0] at hdis
  omega

theorem Ball.ancestry_scanned (h : Ball m sign c n q old) (hscan : Scanned m q' value old st) :
    Ancestry m c n st.pre where
  root := by
    rw [(hscan.keep c (h.dis_ne (m.isDist_self c) (Nat.zero_le n))).2]
    exact h.ancestry.root
  parent x i hx hi := by
    rw [(hscan.keep x (h.dis_ne hx hi)).2]
    exact h.ancestry.parent x i hx hi

theorem Ball.scanned (h : Ball m sign c n q old) (hscan : Scanned m q' value old st)
    (hvalue : sign * value ≤ 0) : Ball m sign c n q st where
  dist_of_pos x hx := by
    by_cases hold : old.dis x = 0
    · rcases hscan.fresh x hold with h0 | ⟨hv, -⟩
      · rw [h0, mul_zero] at hx
        exact absurd hx (lt_irrefl 0)
      · rw [hv] at hx
        omega
    · rw [(hscan.keep x hold).1] at hx
      exact h.dist_of_pos x hx
  dis_eq x i hx hi := by
    rw [(hscan.keep x (h.dis_ne hx hi)).1]
    exact h.dis_eq x i hx hi
  mem_queue := h.mem_queue
  ancestry := h.ancestry_scanned hscan

theorem Ball.reached_iff (h : Ball m sign c n q old) (hscan : Scanned m q value old st)
    (hall : ∀ x ∈ q, ∀ y, m.Adj x y → 0 < sign * st.dis y) :
    old.dis y = 0 ∧ st.dis y ≠ 0 ↔ m.IsDist c y (n + 1) := by
  constructor
  · rintro ⟨hold, hnew⟩
    obtain ⟨-, x, hx, -, hadj⟩ := (hscan.fresh y hold).resolve_left hnew
    have hjoin : m.Joins c y (n + 1) := m.joins_succ.mpr ⟨x, ((h.mem_queue x).mp hx).1, hadj⟩
    obtain ⟨k, hk, hdist⟩ := hjoin.exists_isDist m
    have hlt : n < k := by
      by_contra hle
      exact h.dis_ne hdist (by omega) hold
    obtain rfl : k = n + 1 := by omega
    exact hdist
  · intro hdist
    obtain ⟨u, hu, hadj⟩ := hdist.pred m
    have hpos := hall u ((h.mem_queue u).mpr hu) y hadj
    refine ⟨?_, right_ne_zero_of_mul hpos.ne'⟩
    by_contra hold
    rw [(hscan.keep y hold).1] at hpos
    obtain ⟨i, hi, hdist'⟩ := h.dist_of_pos y hpos
    have := hdist.unique m hdist'
    omega

theorem Ball.grow (hsign : sign = 1 ∨ sign = -1) (h : Ball m sign c n q old)
    (hscan : Scanned m q (sign * (n + 1) + sign) old st)
    (hall : ∀ x ∈ q, ∀ y, m.Adj x y → 0 < sign * st.dis y) : Ball m sign c (n + 1) st.tmp st where
  dist_of_pos x hx := by
    by_cases hold : old.dis x = 0
    · have hnew : st.dis x ≠ 0 := right_ne_zero_of_mul hx.ne'
      exact ⟨n + 1, le_rfl, (h.reached_iff hscan hall).mp ⟨hold, hnew⟩⟩
    · rw [(hscan.keep x hold).1] at hx
      obtain ⟨i, hi, hdist⟩ := h.dist_of_pos x hx
      exact ⟨i, by omega, hdist⟩
  dis_eq x i hx hi := by
    rcases Nat.lt_succ_iff_lt_or_eq.mp (Nat.lt_succ_of_le hi) with hlt | rfl
    · rw [(hscan.keep x (h.dis_ne hx (by omega))).1]
      exact h.dis_eq x i hx (by omega)
    · obtain ⟨hold, hnew⟩ := (h.reached_iff hscan hall).mpr hx
      rw [((hscan.fresh x hold).resolve_left hnew).1]
      rcases hsign with rfl | rfl <;> push_cast <;> ring
  mem_queue x := (hscan.mem_tmp x).trans (h.reached_iff hscan hall)
  ancestry := by
    refine ⟨(h.ancestry_scanned hscan).root, fun x i hx hi => ?_⟩
    rcases Nat.lt_succ_iff_lt_or_eq.mp (Nat.lt_succ_of_le hi) with hlt | heq
    · exact (h.ancestry_scanned hscan).parent x i hx (by omega)
    · obtain rfl : i = n := by omega
      obtain ⟨hold, hnew⟩ := (h.reached_iff hscan hall).mpr hx
      obtain ⟨-, u, hu, hpre, hadj⟩ := (hscan.fresh x hold).resolve_left hnew
      exact ⟨u, hpre, (h.mem_queue u).mp hu, hadj⟩

theorem Ball.disjoint (h : Ball m sign c n q st) (h' : Ball m (-sign) c' n' q' st) (x : VertexRecord)
    (hx : ∃ i ≤ n, m.Joins c x i) : ¬ ∃ j ≤ n', m.Joins c' x j := by
  rintro ⟨j, hj, hjoin'⟩
  obtain ⟨i, hi, hjoin⟩ := hx
  obtain ⟨k, hk, hdist⟩ := hjoin.exists_isDist m
  obtain ⟨k', hk', hdist'⟩ := hjoin'.exists_isDist m
  have hpos := h.dis_eq x k hdist (by omega)
  have hneg := h'.dis_eq x k' hdist' (by omega)
  rw [neg_mul] at hneg
  omega

theorem Ball.dist_of_met (hrev : m.Reversible) (h : Ball m sign c n q st)
    (h' : Ball m (-sign) c' n' q' st) (hx : m.IsDist c x n) (hadj : m.Adj x y)
    (hy : sign * st.dis y < 0) : m.IsDist c' y n' ∧ m.IsDist c c' (n + n' + 1) := by
  obtain ⟨j, hj, hdist⟩ := h'.dist_of_pos y (by rw [neg_mul]; omega)
  have hjoin : m.Joins c c' (n + 1 + j) :=
    m.joins_add.mpr ⟨y, m.joins_succ.mpr ⟨x, hx.1, hadj⟩, hdist.1.symm hrev⟩
  have hlt : ∀ k, m.Joins c c' k → n + n' < k :=
    fun k hk => Moves.add_lt_of_disjoint hrev (h.disjoint h') hk
  have := hlt _ hjoin
  obtain rfl : j = n' := by omega
  exact ⟨hdist, by rwa [add_right_comm], fun k hk => hlt k hk⟩

theorem Ball.unreachable (h : Ball m sign c n [] st) (h' : Ball m (-sign) c' n' q' st) {d : ℕ} :
    ¬ m.IsDist c c' d := by
  intro hd
  have hlt : n < d := by
    by_contra hle
    exact h.disjoint h' c' ⟨d, by omega, hd.1⟩ ⟨0, Nat.zero_le n', m.joins_zero.mpr rfl⟩
  obtain ⟨u, hu⟩ := hd.exists_at m hlt.le
  exact absurd ((h.mem_queue u).mpr hu) not_mem_nil

end

section

variable {s t c c' : VertexRecord} {n n' : ℕ} {q q' : List VertexRecord} {st : PairState}
  {upper : ℤ}

def unreached (U : Finset VertexRecord) (st : PairState) : ℕ := (U.filter fun x => st.dis x = 0).card

structure IsMeeting (m : Moves VertexRecord (Hop E)) (c c' : VertexRecord) (n n' : ℕ)
    (x y : VertexRecord) (pre : VertexRecord → Option VertexRecord) : Prop where
  left : m.IsDist c x n
  right : m.IsDist c' y n'
  adj : m.Adj x y
  dist : m.IsDist c c' (n + n' + 1)
  leftAncestry : Ancestry m c n pre
  rightAncestry : Ancestry m c' n' pre

theorem drain_round (upper : ℤ) (hrev : m.Reversible) {U : Finset VertexRecord}
    (hU : ∀ x y, m.Adj x y → y ∈ U) {sign : ℤ} (hsign : sign = 1 ∨ sign = -1)
    (h : Ball m sign c n q st) (h' : Ball m (-sign) c' n' q' st) (hq : q ≠ [])
    (past : ℤ → Bool) (hpast : past (sign * (n + 1)) = true ↔ upper ≤ n) :
    (drain m sign past q { st with tmp := [] } = .tooFar ∧ ∀ d, m.IsDist c c' d → upper ≤ d) ∨
    (∃ st', drain m sign past q { st with tmp := [] } = .done st' ∧ n < upper ∧
      Ball m sign c (n + 1) st'.tmp st' ∧ Ball m (-sign) c' n' q' st' ∧
      (st'.tmp ≠ [] → unreached U st' < unreached U st)) ∨
    ∃ x y st', drain m sign past q { st with tmp := [] } = .met x y st' ∧
      IsMeeting m c c' n n' x y st'.pre := by
  have hdis : ∀ x ∈ q, st.dis x = sign * (n + 1) := by
    intro x hx
    have hx' := h.dis_eq x n ((h.mem_queue x).mp hx) le_rfl
    rcases hsign with rfl | rfl <;> omega
  by_cases hfar : upper ≤ n
  · refine .inl ⟨drain_tooFar hq fun x hx => ?_, fun d hd => ?_⟩
    · dsimp only
      rw [hdis x hx]
      exact hpast.mpr hfar
    · have := Moves.add_lt_of_disjoint hrev (h.disjoint h') hd.1
      omega
  right
  set old : PairState := { st with tmp := [] } with hold
  have hball : Ball m sign c n q old := ⟨h.dist_of_pos, h.dis_eq, h.mem_queue, h.ancestry⟩
  have hball' : Ball m (-sign) c' n' q' old :=
    ⟨h'.dist_of_pos, h'.dis_eq, h'.mem_queue, h'.ancestry⟩
  have hpos : 0 < sign * (sign * (n + 1)) := by rcases hsign with rfl | rfl <;> omega
  have hqueue : ∀ x ∈ q, x ∈ q ∧ old.dis x = sign * (n + 1) := fun x hx => ⟨hx, hdis x hx⟩
  rcases drain_spec hsign hpos (Bool.eq_false_iff.mpr fun hp => hfar (hpast.mp hp)) q hqueue
    (Scanned.start old rfl) with
    ⟨st', hdone, hscan, -, hall⟩ | ⟨x, y, st', hmet, hscan, hx, hadj, hy⟩
  · refine .inl ⟨st', hdone, by omega, hball.grow hsign hscan hall,
      hball'.scanned hscan (by rcases hsign with rfl | rfl <;> push_cast <;> omega), fun hne => ?_⟩
    obtain ⟨y, hy⟩ := exists_mem_of_ne_nil _ hne
    obtain ⟨h0, hnew⟩ := (hscan.mem_tmp y).mp hy
    obtain ⟨-, x, hx, -, hadj⟩ := (hscan.fresh y h0).resolve_left hnew
    refine Finset.card_lt_card (Finset.ssubset_iff_of_subset ?_ |>.mpr ⟨y, ?_, ?_⟩)
    · intro z hz
      rw [Finset.mem_filter] at hz ⊢
      refine ⟨hz.1, by_contra fun hne => ?_⟩
      exact hne ((hscan.keep z hne).1.symm.trans hz.2)
    · exact Finset.mem_filter.mpr ⟨hU x y hadj, h0⟩
    · exact fun hmem => hnew (Finset.mem_filter.mp hmem).2
  · have hxdist := (h.mem_queue x).mp hx
    obtain ⟨hydist, hdist⟩ := hball.dist_of_met hrev hball' hxdist hadj hy
    exact .inr ⟨x, y, st', hmet, hxdist, hydist, hadj, hdist, hball.ancestry_scanned hscan,
      hball'.ancestry_scanned hscan⟩

theorem IsMeeting.swap (hrev : m.Reversible) {x y : VertexRecord}
    {pre : VertexRecord → Option VertexRecord} (h : IsMeeting m c c' n n' x y pre) :
    IsMeeting m c' c n' n y x pre :=
  ⟨h.right, h.left, hrev _ _ h.adj, by rw [add_comm n']; exact h.dist.symm hrev,
    h.rightAncestry, h.leftAncestry⟩

theorem checkedInt_eq {k : ℤ} (hlow : -2 ^ 31 ≤ k) (hup : k < 2 ^ 31) : checkedInt k = some k :=
  if_pos ⟨hlow, hup⟩

/-- The outer loop ends with a meeting on a shortest path, or the distance is not below the upper
bound. -/
theorem meet_spec (hrev : m.Reversible) {U : Finset VertexRecord}
    (hU : ∀ x y, m.Adj x y → y ∈ U) (hlow : -2 ^ 31 ≤ upper) (hup : upper < 2 ^ 31 - 1)
    (rounds : ℕ) {a b : ℕ} {q1 q2 : List VertexRecord}
    (h : Ball m 1 s a q1 st) (h' : Ball m (-1) t b q2 st)
    (hpos : q1.length ≤ q2.length ∨ 0 < upper) (hrounds : 1 ≤ rounds)
    (hmore : q1 ≠ [] → q2 ≠ [] → unreached U st + 2 ≤ rounds) :
    (meet m upper rounds st q1 q2 = some none ∧ ∀ d, m.IsDist s t d → upper ≤ d) ∨
    ∃ x y st' a b, meet m upper rounds st q1 q2 = some (some (x, y, st')) ∧
      IsMeeting m s t a b x y st'.pre := by
  induction rounds generalizing st a b q1 q2 with
  | zero => omega
  | succ rounds ih =>
    rw [meet]
    split_ifs with hle hnil hnil
    · subst hnil
      exact .inl ⟨rfl, fun d hd => absurd hd (h.unreachable h')⟩
    · rw [checkedInt_eq (by omega) (by omega), bind_some]
      have hq2 : q2 ≠ [] := by
        rintro rfl
        exact hnil (length_eq_zero_iff.mp (Nat.le_zero.mp hle))
      have hleft := hmore hnil hq2
      rcases drain_round upper hrev hU (.inl rfl) h h' hnil
        (fun d => decide (upper + 1 ≤ d)) (by rw [decide_eq_true_eq]; omega) with
        ⟨hfar, hdist⟩ | ⟨st', hdone, hlt, hgrow, hkeep, hless⟩ | ⟨x, y, st', hmet, hmeet⟩
      · rw [hfar]
        exact .inl ⟨rfl, hdist⟩
      · rw [hdone]
        exact ih hgrow hkeep (.inr (by omega)) (by omega) fun hne _ => by
          have := hless hne
          omega
      · rw [hmet]
        exact .inr ⟨x, y, st', a, b, rfl, hmeet⟩
    · subst hnil
      have h'' : Ball m (- -1) s a q1 st := by simpa using h
      exact .inl ⟨rfl, fun d hd => absurd (hd.symm hrev) (h'.unreachable h'')⟩
    · have hpos' : 0 < upper := hpos.resolve_left hle
      have hq1 : q1 ≠ [] := by
        rintro rfl
        exact hle (Nat.zero_le _)
      have hleft := hmore hq1 hnil
      have h'' : Ball m (- -1) s a q1 st := by simpa using h
      rw [checkedInt_eq (by omega) (by omega), bind_some,
        checkedInt_eq (by omega) (by omega), bind_some]
      rcases drain_round upper hrev hU (.inr rfl) h' h'' hnil
        (fun d => decide (d ≤ -upper - 1)) (by rw [decide_eq_true_eq]; omega) with
        ⟨hfar, hdist⟩ | ⟨st', hdone, hlt, hgrow, hkeep, hless⟩ | ⟨x, y, st', hmet, hmeet⟩
      · rw [hfar]
        exact .inl ⟨rfl, fun d hd => hdist d (hd.symm hrev)⟩
      · rw [hdone]
        exact ih (by simpa using hkeep) hgrow (.inr hpos') (by omega) fun _ hne => by
          have := hless hne
          omega
      · rw [hmet]
        exact .inr ⟨y, x, st', a, b, rfl, hmeet.swap hrev⟩

end

theorem ancestors_spec {c x : VertexRecord} {n i fuel : ℕ}
    {pre : VertexRecord → Option VertexRecord} (h : Ancestry m c n pre) (hx : m.IsDist c x i)
    (hi : i ≤ n) (hfuel : i < fuel) :
    ∃ l, ancestors pre fuel x = some l ∧ l.head? = some x ∧ l.getLast? = some c ∧
      l.length = i + 1 ∧ l.IsChain fun x u => m.Adj u x := by
  induction i generalizing x fuel with
  | zero =>
    obtain ⟨fuel, rfl⟩ : ∃ f, fuel = f + 1 := ⟨fuel - 1, by omega⟩
    obtain rfl := m.isDist_zero.mp hx
    exact ⟨[x], by rw [ancestors, h.root], rfl, rfl, rfl, .singleton x⟩
  | succ i ih =>
    obtain ⟨fuel, rfl⟩ : ∃ f, fuel = f + 1 := ⟨fuel - 1, by omega⟩
    obtain ⟨u, hpre, hu, hadj⟩ := h.parent x i hx hi
    obtain ⟨l, hl, hhead, hlast, hlen, hchain⟩ := ih hu (by omega) (by omega : i < fuel)
    refine ⟨x :: l, by simp only [ancestors, hpre, hl, map_some], rfl, ?_, ?_, ?_⟩
    · rw [getLast?_cons, hlast]
      rfl
    · rw [length_cons, hlen]
    · refine isChain_cons.mpr ⟨fun y hy => ?_, hchain⟩
      obtain rfl := some.inj (hhead.symm.trans hy)
      exact hadj

structure IsEdgePath (m : Moves VertexRecord (Hop E)) (s t : VertexRecord)
    (path : List VertexRecord) (edges : List (Hop E)) : Prop where
  head : path.head? = some s
  last : path.getLast? = some t
  length : path.length = edges.length + 1
  edge : ∀ i h, edges[i]? = some h → ∃ u v, path[i]? = some u ∧ path[i + 1]? = some v ∧
    h ∈ m.next u ∧ m.target h = v

theorem getEdgeDatas_spec (path : List VertexRecord) (hne : path ≠ []) (h : path.IsChain m.Adj) :
    path.length = (getEdgeDatas m path).length + 1 ∧
      ∀ i h, (getEdgeDatas m path)[i]? = some h → ∃ u v, path[i]? = some u ∧
        path[i + 1]? = some v ∧ h ∈ m.next u ∧ m.target h = v := by
  induction path with
  | nil => exact absurd rfl hne
  | cons u path ih =>
    cases path with
    | nil => exact ⟨rfl, fun i h hh => by simp [getEdgeDatas] at hh⟩
    | cons v path =>
      obtain ⟨⟨hop, hhop, htarget⟩, hchain⟩ := isChain_cons_cons.mp h
      obtain ⟨hlen, hedge⟩ := ih (cons_ne_nil _ _) hchain
      obtain ⟨first, hfirst⟩ : ∃ h, (m.next u).find? (fun h => m.target h = v) = some h :=
        isSome_iff_exists.mp (find?_isSome.mpr ⟨hop, hhop, by simp [htarget]⟩)
      have hdatas : getEdgeDatas m (u :: v :: path) = first :: getEdgeDatas m (v :: path) := by
        rw [getEdgeDatas, hfirst]
        rfl
      rw [hdatas]
      refine ⟨by rw [length_cons, hlen, length_cons], fun i h hh => ?_⟩
      cases i with
      | zero =>
        obtain rfl : first = h := by simpa using hh
        exact ⟨u, v, rfl, rfl, mem_of_find?_eq_some hfirst, by
          simpa using find?_some hfirst⟩
      | succ i => exact hedge i h (by simpa using hh)

theorem IsMeeting.isEdgePath (hrev : m.Reversible) {s t x y : VertexRecord} {a b : ℕ}
    {front back : List VertexRecord} {pre : VertexRecord → Option VertexRecord}
    (h : IsMeeting m s t a b x y pre)
    (hfront : front.head? = some x ∧ front.getLast? = some s ∧ front.length = a + 1 ∧
      front.IsChain fun x u => m.Adj u x)
    (hback : back.head? = some y ∧ back.getLast? = some t ∧ back.length = b + 1 ∧
      back.IsChain fun x u => m.Adj u x) : (front.reverse ++ back).length = a + b + 1 + 1 ∧
      IsEdgePath m s t (front.reverse ++ back) (getEdgeDatas m (front.reverse ++ back)) := by
  obtain ⟨hfhead, hflast, hflen, hfchain⟩ := hfront
  obtain ⟨hbhead, hblast, hblen, hbchain⟩ := hback
  have hlen : (front.reverse ++ back).length = a + b + 1 + 1 := by
    rw [length_append, length_reverse]
    omega
  have hchain : (front.reverse ++ back).IsChain m.Adj := by
    refine isChain_append.mpr ⟨isChain_reverse.mpr hfchain,
      hbchain.imp fun u v huv => hrev v u huv, fun u hu v hv => ?_⟩
    rw [getLast?_reverse, hfhead] at hu
    rw [hbhead] at hv
    cases hu
    cases hv
    exact h.adj
  have hne : front.reverse ++ back ≠ [] := by
    intro hnil
    rw [hnil] at hlen
    cases hlen
  obtain ⟨hedges, hedge⟩ := getEdgeDatas_spec _ hne hchain
  refine ⟨hlen, ⟨?_, ?_, hedges, hedge⟩⟩
  · rw [head?_append, head?_reverse, hflast]
    rfl
  · rw [getLast?_append, hblast]
    rfl

/-- The search returns true exactly for a distance between the bounds, and then with a path of this
length. -/
def IsPairResult (m : Moves VertexRecord (Hop E)) (lower upper : ℤ) (s t : VertexRecord)
    (r : PairResult E) : Prop :=
  (r.returned = true ↔ ∃ d, m.IsDist s t d ∧ lower ≤ d ∧ d < upper) ∧
    (r.returned = true → IsEdgePath m s t r.path r.edgeDatas ∧ m.IsDist s t r.edgeDatas.length)

section

variable {g : ReadGraph E} {vLabel eLabel src dst : ℕ} {lower upper : ℤ}

/-- The vertices of one label are no more than the values of `vid_t`. -/
theorem card_endpoints_vid
    (h : ∀ e ∈ g.edges ⟨vLabel, vLabel, eLabel⟩, g.src e < 2 ^ 32 ∧ g.dst e < 2 ^ 32) :
    (g.endpoints ⟨vLabel, vLabel, eLabel⟩).card ≤ 2 ^ 32 := by
  have hmem : ∀ v ∈ g.endpoints ⟨vLabel, vLabel, eLabel⟩, v.label = vLabel ∧ v.vid < 2 ^ 32 := by
    intro v hv
    obtain ⟨k, hk, rfl⟩ := mem_map.mp (mem_toFinset.mp hv)
    obtain ⟨τ, hτ, hk⟩ := mem_flatMap.mp hk
    obtain rfl := mem_singleton.mp hτ
    obtain ⟨e, he, hk⟩ := mem_flatMap.mp hk
    obtain ⟨hsrc, hdst⟩ := h e he
    rcases mem_cons.mp hk with rfl | hk
    · exact ⟨rfl, hdst⟩
    · obtain rfl := mem_singleton.mp hk
      exact ⟨rfl, hsrc⟩
  rw [← Finset.card_range (2 ^ 32)]
  refine Finset.card_le_card_of_injOn VertexRecord.vid
    (fun v hv => Finset.mem_coe.mpr (mem_range.mpr (hmem v hv).2)) fun u hu v hv heq => ?_
  cases u
  cases v
  have hlu := (hmem _ hu).1
  have hlv := (hmem _ hv).1
  simp_all

theorem sizeToInt_of_lt {n : ℕ} (h : n < 2 ^ 31) : sizeToInt n = n := by
  exact Int.bmod_eq_of_le (by omega) (by omega)

theorem sizeToInt_neg {n : ℕ} (h : 2 ^ 31 ≤ n) (h' : n < 2 ^ 32) : sizeToInt n < 0 := by
  unfold sizeToInt
  rw [Int.bmod_def]
  split_ifs <;> omega

theorem ball_start {m : Moves VertexRecord (Hop E)} {sign : ℤ} {c : VertexRecord}
    {st : PairState} (hpos : ∀ x, 0 < sign * st.dis x → x = c) (hc : sign * st.dis c = 1)
    (hpre : st.pre c = none) : Ball m sign c 0 [c] st where
  dist_of_pos x hx := ⟨0, le_rfl, m.isDist_zero.mpr (hpos x hx)⟩
  dis_eq x i hx hi := by
    obtain rfl := Nat.le_zero.mp hi
    rw [m.isDist_zero.mp hx, hc]
    rfl
  mem_queue x := by rw [mem_singleton, m.isDist_zero]
  ancestry := ⟨hpre, fun x i _ hi => by omega⟩

theorem balls_start {m : Moves VertexRecord (Hop E)} {s t : VertexRecord} (hne : s ≠ t) :
    Ball m 1 s 0 [s] (.start s t) ∧ Ball m (-1) t 0 [t] (.start s t) := by
  have hs : (PairState.start s t).dis s = 1 := by simp [PairState.start, hne]
  have ht : (PairState.start s t).dis t = -1 := by simp [PairState.start]
  have hother : ∀ x, x ≠ s → x ≠ t → (PairState.start s t).dis x = 0 := by
    intro x hxs hxt
    simp [PairState.start, hxs, hxt]
  constructor
  · refine ball_start (fun x hx => by_contra fun hxs => ?_) (by rw [hs]; rfl) rfl
    by_cases hxt : x = t
    · rw [hxt] at hx
      omega
    · rw [hother x hxs hxt] at hx
      omega
  · refine ball_start (fun x hx => by_contra fun hxt => ?_) (by rw [ht]; rfl) rfl
    by_cases hxs : x = s
    · rw [hxs] at hx
      omega
    · rw [hother x hxs hxt] at hx
      omega

/-- The pair search is right for every upper bound but the largest `int`, where the bound plus one
overflows. -/
theorem pairShortestPath_iff (g : ReadGraph E) (vLabel eLabel src dst : ℕ) (lower upper : ℤ)
    (hne : src ≠ dst) (hlower : 0 ≤ lower) (hupper : -2 ^ 31 ≤ upper ∧ upper < 2 ^ 31)
    (hvid : ∀ e ∈ g.edges ⟨vLabel, vLabel, eLabel⟩, g.src e < 2 ^ 32 ∧ g.dst e < 2 ^ 32) :
    (∃ r, pairShortestPath g ⟨vLabel, vLabel, eLabel⟩ lower upper ⟨vLabel, src⟩ ⟨vLabel, dst⟩ =
        some r ∧
      IsPairResult (g.moves [⟨vLabel, vLabel, eLabel⟩] .both) lower upper ⟨vLabel, src⟩
        ⟨vLabel, dst⟩ r) ↔ upper ≠ 2 ^ 31 - 1 := by
  have hrev := g.reversible_both [⟨vLabel, vLabel, eLabel⟩]
  constructor
  · rintro ⟨r, hr, -⟩ rfl
    cases hr
  · intro hmax
    have hne' : (⟨vLabel, src⟩ : VertexRecord) ≠ ⟨vLabel, dst⟩ :=
      fun h => hne (VertexRecord.mk.inj h).2
    obtain ⟨hball, hball'⟩ := balls_start hne'
    have hadj := g.adj_endpoints ⟨vLabel, vLabel, eLabel⟩
    have hcard := g.card_endpoints_le ⟨vLabel, vLabel, eLabel⟩
    have hrounds : unreached (g.endpoints ⟨vLabel, vLabel, eLabel⟩)
        (.start ⟨vLabel, src⟩ ⟨vLabel, dst⟩) + 2 ≤ pairRounds g ⟨vLabel, vLabel, eLabel⟩ := by
      have := Finset.card_filter_le (g.endpoints ⟨vLabel, vLabel, eLabel⟩) fun x =>
        (PairState.start ⟨vLabel, src⟩ ⟨vLabel, dst⟩).dis x = 0
      unfold unreached pairRounds
      omega
    unfold pairShortestPath
    rcases meet_spec hrev hadj hupper.1 (by omega) (pairRounds g ⟨vLabel, vLabel, eLabel⟩) hball
      hball' (.inl le_rfl) (by unfold pairRounds; omega) (fun _ _ => hrounds) with
      ⟨hnone, hfar⟩ | ⟨x, y, st, a, b, hsome, hmeet⟩
    · rw [hnone]
      refine ⟨_, rfl, ⟨fun h => absurd h Bool.false_ne_true, ?_⟩,
        fun h => absurd h Bool.false_ne_true⟩
      rintro ⟨d, hd, -, hlt⟩
      have := hfar d hd
      omega
    · rw [hsome, bind_some]
      -- the distance is below the number of vertices, so the predecessors are followed to the end
      obtain ⟨z, hz⟩ := hmeet.dist.1.exists_adj
      have hlt := hmeet.dist.lt_card _ (hadj z _ (hrev _ _ hz)) hadj
      have hfuel : a + b + 1 < pairRounds g ⟨vLabel, vLabel, eLabel⟩ := by
        unfold pairRounds
        omega
      obtain ⟨front, hfront, hfront'⟩ := ancestors_spec hmeet.leftAncestry hmeet.left le_rfl
        (by omega : a < pairRounds g ⟨vLabel, vLabel, eLabel⟩)
      obtain ⟨back, hback, hback'⟩ := ancestors_spec hmeet.rightAncestry hmeet.right le_rfl
        (by omega : b < pairRounds g ⟨vLabel, vLabel, eLabel⟩)
      obtain ⟨hlen, hpath⟩ := hmeet.isEdgePath hrev hfront' hback'
      dsimp only
      rw [hfront, hback]
      have hedges : (getEdgeDatas (g.moves [⟨vLabel, vLabel, eLabel⟩] .both)
          (front.reverse ++ back)).length = a + b + 1 := by
        have := hpath.length
        omega
      refine ⟨_, rfl, ?_, fun _ => ⟨hpath, hedges ▸ hmeet.dist⟩⟩
      simp only [PairResult.ofPath, hlen, Nat.add_sub_cancel, decide_eq_true_eq]
      constructor
      · rintro ⟨hlow, hup⟩
        have hint : a + b + 1 < 2 ^ 31 := by
          -- a longer path would give a negative length
          by_contra hlong
          have hvids := card_endpoints_vid hvid
          have hneg := sizeToInt_neg (n := a + b + 1) (by omega) (by omega)
          exact absurd (hlower.trans hlow) (not_le.mpr hneg)
        rw [sizeToInt_of_lt hint] at hlow hup
        exact ⟨_, hmeet.dist, hlow, hup⟩
      · rintro ⟨d, hd, hlow, hup⟩
        obtain rfl := hd.unique _ hmeet.dist
        have hint : a + b + 1 < 2 ^ 31 := by omega
        rw [sizeToInt_of_lt hint]
        exact ⟨hlow, hup⟩

end

theorem pairShortestPath_oneEdge :
    (∃ r, pairShortestPath oneEdge ⟨0, 0, 0⟩ 1 5 ⟨0, 0⟩ ⟨0, 1⟩ = some r ∧
      IsPairResult (oneEdge.moves [⟨0, 0, 0⟩] .both) 1 5 ⟨0, 0⟩ ⟨0, 1⟩ r) ↔
      (5 : ℤ) ≠ 2 ^ 31 - 1 :=
  pairShortestPath_iff oneEdge 0 0 0 1 1 5 (by decide) (by decide) (by decide) fun e _ =>
    ⟨by simp [oneEdge, ReadGraph.ofEdges], by simp [oneEdge, ReadGraph.ofEdges]⟩

/-- The bound that `hop_upper + 1` overflows. -/
theorem pairShortestPath_overflow :
    ¬ ∃ r, pairShortestPath oneEdge ⟨0, 0, 0⟩ 1 (2 ^ 31 - 1) ⟨0, 0⟩ ⟨0, 1⟩ = some r ∧
      IsPairResult (oneEdge.moves [⟨0, 0, 0⟩] .both) 1 (2 ^ 31 - 1) ⟨0, 0⟩ ⟨0, 1⟩ r := by
  rintro ⟨r, hr, -⟩
  cases hr

end Neug.Execution
