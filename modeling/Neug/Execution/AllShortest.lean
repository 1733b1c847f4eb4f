import Neug.Execution.AllShortestMarks
import Neug.Execution.AllShortestSelf

/-! What the search for all shortest paths returns: between two vertices the shortest paths of at most
127 edges, and from a vertex to itself the empty path if the two sides happen to meet. -/
namespace Neug.Execution
open Neug.Lib List Option

variable {E : Type} (g : ReadGraph E) (τ : LabelTriplet) (lower upper : ℤ) {s t : VertexRecord}

theorem allShortestPaths_returns (s t : VertexRecord) :
    ∃ st, runLoop (round (g.moves [τ] .both) upper) (allRounds g τ) ⟨.start s, .start t, []⟩ =
        some st ∧
      ((st.vec = [] ∨ upper ≤ st.src.dep + st.dst.dep) ∧
          allShortestPaths g τ upper s t = some [] ∨
        st.vec ≠ [] ∧ st.src.dep + st.dst.dep < upper ∧ ∃ fuel marked,
          runLoop (markNext (g.moves [τ] .both) st.dst.dist) fuel
            ⟨st.vec, (· ∈ st.vec), st.src.dist⟩ = some marked ∧
          allShortestPaths g τ upper s t =
            some ((enumerate (g.moves [τ] .both) marked s t).map (Path.mk s))) := by
  have hcard := g.card_endpoints_le τ
  have hrounds : 4 * (g.endpoints τ).card + 4 < allRounds g τ := by
    unfold allRounds
    omega
  obtain ⟨st, hst⟩ := exists_runLoop_round (g.adj_endpoints τ) upper s t hrounds
  refine ⟨st, hst, ?_⟩
  unfold allShortestPaths
  dsimp only
  rw [hst, bind_some]
  by_cases hvec : st.vec = []
  · rw [if_pos hvec]
    exact .inl ⟨.inl hvec, rfl⟩
  · rw [if_neg hvec]
    by_cases hsum : upper ≤ st.src.dep + st.dst.dep
    · rw [if_pos hsum]
      exact .inl ⟨.inr hsum, rfl⟩
    · rw [if_neg hsum]
      have hfuel : (Marked.mk st.vec (· ∈ st.vec) st.src.dist).queue.length +
          2 * (g.endpoints τ).card < st.vec.length + 2 * (g.crossings [τ]).length + 1 := by
        dsimp only
        omega
      obtain ⟨marked, hmarked⟩ := exists_runLoop_markNext (g.adj_endpoints τ) st.dst.dist hfuel
      refine .inr ⟨hvec, not_le.mp hsum, _, marked, hmarked, ?_⟩
      rw [hmarked, map_some]

/-- The paths along edges from `s` to `t` whose length is the distance of the two. -/
def IsShortest (s t : VertexRecord) (p : Path E) : Prop :=
  p.start = s ∧ p.IsWalk g [τ] .both ∧ p.endNode = t ∧ (g.moves [τ] .both).IsDist s t p.length

theorem enumerates_map {P : List (Hop E) → Prop} {ws : List (List (Hop E))}
    (h : Enumerates ws P) : Enumerates (ws.map (Path.mk s)) fun p => p.start = s ∧ P p.hops := by
  refine ⟨h.1.map fun _ _ heq => (Path.mk.inj heq).2, fun p => ?_⟩
  rw [List.mem_map]
  constructor
  · rintro ⟨w, hw, rfl⟩
    exact ⟨rfl, (h.2 w).mp hw⟩
  · rintro ⟨rfl, hp⟩
    exact ⟨p.hops, (h.2 _).mpr hp, rfl⟩

/-- Between two vertices the search finds the shortest paths if they have at most 127 edges and fewer
than the upper bound. -/
theorem allShortestPaths_of_ne (hne : s ≠ t) : ∃ ps, allShortestPaths g τ upper s t = some ps ∧
    Enumerates ps fun p => IsShortest g τ s t p ∧ p.length ≤ 127 ∧ (p.length : ℤ) < upper := by
  have hrev := g.reversible_both [τ]
  obtain ⟨st, hst, hcases⟩ := allShortestPaths_returns g τ upper s t
  by_cases hnear : ∃ d ≤ 127, (g.moves [τ] .both).IsDist s t d
  · obtain ⟨d, hsmall, hd⟩ := hnear
    have hnone : upper ≤ d → Enumerates [] fun p =>
        IsShortest g τ s t p ∧ p.length ≤ 127 ∧ p.length < upper := by
      refine fun hle => ⟨nodup_nil, fun p => ⟨fun hp => absurd hp not_mem_nil, ?_⟩⟩
      rintro ⟨⟨-, -, -, hp⟩, -, hlt⟩
      rw [← hd.unique _ hp] at hlt
      omega
    rcases near_of_runLoop hrev hd hsmall hne hst with ⟨hvec, hle⟩ | ⟨hvec, a, b, hmet, hab⟩
    · rcases hcases with ⟨-, heq⟩ | ⟨hvec', -⟩
      · exact ⟨[], heq, hnone hle⟩
      · exact absurd hvec hvec'
    · have hsum : st.src.dep + st.dst.dep = d := by
        rw [hmet.src.dep, hmet.dst.dep, toInt8_of_le (by omega), toInt8_of_le (by omega), ← hab]
        exact (Nat.cast_add a b).symm
      rcases hcases with ⟨hstop, heq⟩ | ⟨-, hlt, fuel, marked, hmarked, heq⟩
      · refine ⟨[], heq, hnone ?_⟩
        rw [← hsum]
        exact hstop.resolve_left hvec
      · refine ⟨_, heq, ?_⟩
        obtain ⟨hvis, hdist⟩ := marked_of_runLoop hrev hd hsmall hmet hab hmarked
        have hmem := fun w => mem_enumerate_of_marked (w := w)
          (home_of_runLoop hne hst hmarked).range hrev hd hvis hdist
        have hnodup := g.nodup_hopsFrom (nodup_singleton τ) .both
        refine (enumerates_map ⟨Moves.nodup_dfs _ hnodup _ _, hmem⟩).congr fun p => ?_
        unfold IsShortest
        rw [p.endNode_eq_last g [τ] .both]
        constructor
        · rintro ⟨rfl, hwalk, hlast, hlen⟩
          exact ⟨⟨rfl, hwalk, hlast, by rwa [Path.length, hlen]⟩, by rwa [Path.length, hlen],
            by rwa [Path.length, hlen, ← hsum]⟩
        · rintro ⟨⟨rfl, hwalk, hlast, hlen⟩, -, -⟩
          exact ⟨rfl, hwalk, hlast, hlen.unique _ hd⟩
  · -- along the distances a path of the enumeration has at most 127 edges
    refine ⟨[], ?_, nodup_nil, fun p => ⟨fun hp => absurd hp not_mem_nil, ?_⟩⟩
    · rcases hcases with ⟨-, heq⟩ | ⟨-, -, fuel, marked, hmarked, heq⟩
      · exact heq
      · have hhome := home_of_runLoop hne hst hmarked
        have hempty : enumerate (g.moves [τ] .both) marked s t = [] := by
          refine eq_nil_iff_forall_not_mem.mpr fun w hw => ?_
          obtain ⟨hguard, hlast, -⟩ := (mem_enumerate hhome.range).mp hw
          have hcount := dist_last hguard
          have hup := (hhome.range ((g.moves [τ] .both).last s w)).2
          rw [hcount, hhome.zero] at hup
          have hjoin : (g.moves [τ] .both).Joins s t w.length := ⟨w, hguard.isWalk, hlast, rfl⟩
          obtain ⟨d, hle, hd⟩ := hjoin.exists_isDist
          exact hnear ⟨d, by omega, hd⟩
        rw [heq, hempty, map_nil]
    · rintro ⟨⟨-, -, -, hd⟩, hle, -⟩
      exact absurd ⟨_, hle, hd⟩ hnear

/-- From a vertex to itself the search finds the empty path or nothing. -/
theorem allShortestPaths_self : ∃ ps, allShortestPaths g τ upper s s = some ps ∧
    Enumerates ps fun p => p = ⟨s, []⟩ ∧ SelfPath (g.moves [τ] .both) s upper := by
  obtain ⟨st, hst, hcases⟩ := allShortestPaths_returns g τ upper s s
  have hself := self_of_runLoop (g.reversible_both [τ])
    (g.nodup_hopsFrom (nodup_singleton τ) .both) hst
  rcases hcases with ⟨hstop, heq⟩ | ⟨hvec, hlt, fuel, marked, -, heq⟩
  · refine ⟨[], heq, nodup_nil, fun p => ⟨fun hp => absurd hp not_mem_nil, ?_⟩⟩
    rintro ⟨-, hpath⟩
    obtain ⟨hvec, hlt⟩ := hself.mp hpath
    rcases hstop with h | h
    · exact absurd h hvec
    · omega
  · refine ⟨[⟨s, []⟩], ?_, nodup_singleton _, fun p => ?_⟩
    · rw [heq]
      simp [enumerate, Moves.dfs]
    · rw [mem_singleton]
      exact ⟨fun hp => ⟨hp, hself.mpr ⟨hvec, hlt⟩⟩, And.left⟩

theorem isShortest_self {p : Path E} : IsShortest g τ s s p ↔ p = ⟨s, []⟩ := by
  constructor
  · rintro ⟨rfl, -, -, hd⟩
    have hlen : p.length = 0 := hd.unique _ ((g.moves [τ] .both).isDist_self _)
    have hhops : p.hops = [] := length_eq_zero_iff.mp hlen
    cases p
    simp_all
  · rintro rfl
    exact ⟨rfl, trivial, rfl, (g.moves [τ] .both).isDist_self s⟩

theorem exists_isShortest {d : ℕ} (hd : (g.moves [τ] .both).IsDist s t d) :
    ∃ p, IsShortest g τ s t p ∧ p.length = d := by
  obtain ⟨w, hwalk, hlast, hlen⟩ := hd.1
  refine ⟨⟨s, w⟩, ⟨rfl, hwalk, ?_, ?_⟩, hlen⟩
  · rw [Path.endNode_eq_last g [τ] .both]
    exact hlast
  · rwa [Path.length, hlen]

section

variable (vLabel eLabel src dst : ℕ)

/-- What the operator has to return: every shortest path once if the distance is between the
bounds. -/
def IsAllShortest (s t : VertexRecord) (ps : List (Path E)) : Prop :=
  Enumerates ps fun p => IsShortest g τ s t p ∧ lower ≤ p.length ∧ (p.length : ℤ) < upper

/-- The distances below the upper bound are at most 127 exactly if they reach the lower bound, and the
two sides meet from a vertex to itself exactly if the bounds admit the empty path. -/
def AllBoundsFit (s t : VertexRecord) : Prop :=
  (s ≠ t → ∀ d : ℕ, (g.moves [τ] .both).IsDist s t d → (d : ℤ) < upper →
      (lower ≤ d ↔ d ≤ 127)) ∧
    (s = t → (lower ≤ 0 ∧ 0 < upper ↔ SelfPath (g.moves [τ] .both) s upper))

theorem allShortestPaths_iff :
    (∃ ps, allShortestPaths g ⟨vLabel, vLabel, eLabel⟩ upper ⟨vLabel, src⟩ ⟨vLabel, dst⟩ = some ps ∧
      IsAllShortest g ⟨vLabel, vLabel, eLabel⟩ lower upper ⟨vLabel, src⟩ ⟨vLabel, dst⟩ ps) ↔
    AllBoundsFit g ⟨vLabel, vLabel, eLabel⟩ lower upper ⟨vLabel, src⟩ ⟨vLabel, dst⟩ := by
  generalize (⟨vLabel, src⟩ : VertexRecord) = s
  generalize (⟨vLabel, dst⟩ : VertexRecord) = t
  generalize (⟨vLabel, vLabel, eLabel⟩ : LabelTriplet) = τ
  by_cases hst : s = t
  · subst hst
    obtain ⟨ps, heq, hps⟩ := allShortestPaths_self g τ upper
    unfold IsAllShortest AllBoundsFit
    rw [hps.exists_iff heq]
    constructor
    · intro hsame
      refine ⟨fun hne => absurd rfl hne, fun _ => ?_⟩
      have hpath := hsame ⟨s, []⟩
      rw [isShortest_self] at hpath
      simpa [Path.length] using hpath.symm
    · rintro ⟨-, hfit⟩ p
      rw [isShortest_self, ← hfit rfl]
      apply and_congr_right
      rintro rfl
      simp [Path.length]
  · obtain ⟨ps, heq, hps⟩ := allShortestPaths_of_ne g τ upper hst
    unfold IsAllShortest AllBoundsFit
    rw [hps.exists_iff heq]
    constructor
    · intro hsame
      refine ⟨fun _ d hd hlt => ?_, fun heq => absurd heq hst⟩
      obtain ⟨p, hp, rfl⟩ := exists_isShortest g τ hd
      have hpath := hsame p
      simp only [hp, hlt, true_and, and_true] at hpath
      exact hpath.symm
    · rintro ⟨hfit, -⟩ p
      apply and_congr_right
      intro hp
      constructor
      · exact fun h => ⟨(hfit hst _ hp.2.2.2 h.2).mpr h.1, h.2⟩
      · exact fun h => ⟨(hfit hst _ hp.2.2.2 h.2).mp h.1, h.2⟩

def twoEdges : ReadGraph ℕ :=
  .ofEdges (fun _ => 0) (fun e => e + 1) (fun τ => if τ = ⟨0, 0, 0⟩ then [0, 1] else [])
    nodup_pair

/-- From vertex 0 to itself with the bounds `1..4`: the distance is 0, but the empty path is
returned. -/
theorem allShortestPaths_twoEdges :
    ¬ ∃ ps, allShortestPaths twoEdges ⟨0, 0, 0⟩ 5 ⟨0, 0⟩ ⟨0, 0⟩ = some ps ∧
      IsAllShortest twoEdges ⟨0, 0, 0⟩ 1 5 ⟨0, 0⟩ ⟨0, 0⟩ ps := by
  rintro ⟨ps, heq, hps⟩
  have hreturned : allShortestPaths twoEdges ⟨0, 0, 0⟩ 5 ⟨0, 0⟩ ⟨0, 0⟩ = some [⟨⟨0, 0⟩, []⟩] := by
    decide +kernel
  obtain rfl := some.inj (hreturned.symm.trans heq)
  obtain ⟨-, hlow, -⟩ := (hps.2 ⟨⟨0, 0⟩, []⟩).mp (mem_singleton_self _)
  cases hlow

end

end Neug.Execution
