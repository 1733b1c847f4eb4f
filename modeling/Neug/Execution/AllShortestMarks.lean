import Neug.Execution.AllShortestRounds

/-! The second search marks the vertices between the two ends, and the enumeration follows the
marks. -/
namespace Neug.Execution
open Neug.Lib List Option Function Bool

variable {E : Type} {m : Moves VertexRecord (Hop E)}

section

variable {far : VertexRecord → ℤ} {v nbr s : VertexRecord} {st st' : Marked}
  {U : Finset VertexRecord}

def Marked.Nearer (st : Marked) (v nbr : VertexRecord) : Prop :=
  st.dist nbr ≠ -1 ∧ st.dist nbr + 1 = st.dist v

theorem Marked.mark_cases (far : VertexRecord → ℤ) (v nbr : VertexRecord) (st : Marked) :
    st.mark far v nbr = st ∧ (st.visited nbr = true ∨
        ¬ st.Nearer v nbr ∧ ¬ (far nbr ≠ -1 ∧ far nbr + 1 = far v)) ∨
      st.visited nbr = false ∧ st.mark far v nbr = st.push nbr ∧ st.Nearer v nbr ∨
      st.visited nbr = false ∧ (far nbr ≠ -1 ∧ far nbr + 1 = far v) ∧ ∃ n ≤ 2, st.mark far v nbr =
        ⟨st.queue ++ nbr :: replicate (n - 1) nbr, update st.visited nbr true,
          update st.dist nbr (toInt8 (st.dist v + 1))⟩ := by
  unfold Marked.mark
  by_cases hvis : st.visited nbr = true
  · rw [if_pos hvis]
    exact .inl ⟨rfl, .inl hvis⟩
  · have hvis' : st.visited nbr = false := eq_false_iff.mpr hvis
    rw [if_neg hvis]
    by_cases hfar : far nbr ≠ -1 ∧ far nbr + 1 = far v
    · refine .inr (.inr ⟨hvis', hfar, ?_⟩)
      rw [if_pos hfar]
      by_cases hnear : st.dist nbr ≠ -1 ∧ st.dist nbr + 1 = st.dist v
      · exact ⟨2, le_rfl, by simp [if_pos hnear, Marked.push]⟩
      · exact ⟨1, by decide, by simp [if_neg hnear, Marked.push]⟩
    · rw [if_neg hfar]
      by_cases hnear : st.dist nbr ≠ -1 ∧ st.dist nbr + 1 = st.dist v
      · exact .inr (.inl ⟨hvis', if_pos hnear, hnear⟩)
      · exact .inl ⟨if_neg hnear, .inr ⟨hnear, hfar⟩⟩

theorem markNext_eq_some (h : markNext m far st = some st') : ∃ v q, st.queue = v :: q ∧
    st' = (m.next v).foldl (fun st h => st.mark far v (m.target h)) { st with queue := q } := by
  unfold markNext at h
  cases hq : st.queue with
  | nil => rw [hq] at h; cases h
  | cons v q =>
    rw [hq] at h
    exact ⟨v, q, rfl, (some.inj h).symm⟩

theorem markNext_eq_none (h : markNext m far st = none) : st.queue = [] := by
  unfold markNext at h
  cases hq : st.queue with
  | nil => rfl
  | cons v q => rw [hq] at h; cases h

theorem foldl_mark_keeps {P : Marked → Prop} (v : VertexRecord)
    (hkeep : ∀ st nbr, m.Adj v nbr → P st → P (st.mark far v nbr)) (hst : P st) :
    P ((m.next v).foldl (fun st h => st.mark far v (m.target h)) st) := by
  have hall : ∀ hops : List (Hop E), hops ⊆ m.next v → ∀ st, P st →
      P (hops.foldl (fun st h => st.mark far v (m.target h)) st) := by
    intro hops
    induction hops with
    | nil => exact fun _ st hst => hst
    | cons h hops ih =>
      intro hsub st hst
      obtain ⟨hh, hsub⟩ := cons_subset.mp hsub
      exact ih hsub _ (hkeep st _ ⟨h, hh, rfl⟩ hst)
  exact hall _ (List.Subset.refl _) st hst

def Marked.weight (U : Finset VertexRecord) (st : Marked) : ℕ :=
  st.queue.length + 2 * (U.filter (st.visited · = false)).card

theorem Marked.weight_update (hnbr : nbr ∈ U) (hvis : st.visited nbr = false)
    (q : List VertexRecord) (dist : VertexRecord → ℤ) :
    Marked.weight U ⟨st.queue ++ q, update st.visited nbr true, dist⟩ + 2 =
      st.weight U + q.length := by
  have hsame : U.filter (update st.visited nbr true · = false) =
      (U.filter (st.visited · = false)).erase nbr := by
    ext z
    by_cases hz : z = nbr
    · simp [hz]
    · simp [hz]
  have hin : nbr ∈ U.filter (st.visited · = false) := Finset.mem_filter.mpr ⟨hnbr, hvis⟩
  have hcard := Finset.card_erase_add_one hin
  unfold Marked.weight
  rw [hsame, length_append]
  omega

theorem Marked.weight_mark (hnbr : nbr ∈ U) : (st.mark far v nbr).weight U ≤ st.weight U := by
  rcases st.mark_cases far v nbr with ⟨heq, -⟩ | ⟨hvis, heq, -⟩ | ⟨hvis, -, n, hn, heq⟩
  · rw [heq]
  · have hweight := Marked.weight_update hnbr hvis [nbr] st.dist
    rw [heq, Marked.push]
    simp only [length_cons, length_nil] at hweight
    omega
  · have hweight := Marked.weight_update hnbr hvis (nbr :: replicate (n - 1) nbr)
      (update st.dist nbr (toInt8 (st.dist v + 1)))
    rw [heq]
    simp only [length_cons, length_replicate] at hweight
    omega

theorem exists_runLoop_markNext (hU : ∀ u v, m.Adj u v → v ∈ U) (far : VertexRecord → ℤ)
    {fuel : ℕ} (hfuel : st.queue.length + 2 * U.card < fuel) :
    ∃ st', runLoop (markNext m far) fuel st = some st' := by
  refine runLoop_returns (fun _ _ _ _ => trivial) (Marked.weight U)
    (fun st st' _ h => ?_) trivial ?_
  · obtain ⟨v, q, hq, rfl⟩ := markNext_eq_some h
    have hpop : Marked.weight U { st with queue := q } < st.weight U := by
      simp only [Marked.weight, hq, length_cons]
      omega
    refine lt_of_le_of_lt ?_ hpop
    apply foldl_mark_keeps (P := fun next => next.weight U ≤ Marked.weight U { st with queue := q })
    · exact fun st nbr hadj hst => (Marked.weight_mark (hU v nbr hadj)).trans hst
    · exact le_rfl
  · have := Finset.card_filter_le U (st.visited · = false)
    unfold Marked.weight
    omega

end

section

variable {s : VertexRecord}

structure Marked.Home (far : VertexRecord → ℤ) (s : VertexRecord) (st : Marked) : Prop where
  range : ∀ y, -128 ≤ st.dist y ∧ st.dist y ≤ 127
  zero : st.dist s = 0
  visited : far s ≠ -1 → st.visited s = true

theorem Marked.Home.mark {far : VertexRecord → ℤ} {st : Marked} (h : st.Home far s)
    (v nbr : VertexRecord) : (st.mark far v nbr).Home far s := by
  have hvisited : far s ≠ -1 → update st.visited nbr true s = true := by
    intro hs
    rw [update_apply]
    split_ifs
    · rfl
    · exact h.visited hs
  rcases st.mark_cases far v nbr with ⟨heq, -⟩ | ⟨-, heq, -⟩ | ⟨hvis, hfar, n, -, heq⟩
  · rw [heq]
    exact h
  · rw [heq]
    exact ⟨h.range, h.zero, hvisited⟩
  · have hne : s ≠ nbr := by
      rintro rfl
      rw [h.visited hfar.1] at hvis
      cases hvis
    rw [heq]
    refine ⟨fun y => ?_, ?_, hvisited⟩
    · dsimp only
      rw [update_apply]
      split_ifs
      · exact toInt8_mem _
      · exact h.range y
    · exact (update_of_ne hne ..).trans h.zero

theorem Marked.Home.run {far : VertexRecord → ℤ} {fuel : ℕ} {st st' : Marked} (h : st.Home far s)
    (hrun : runLoop (markNext m far) fuel st = some st') : st'.Home far s := by
  refine (runLoop_keeps (fun st st' h hstep => ?_) h hrun).1
  obtain ⟨v, q, -, rfl⟩ := markNext_eq_some hstep
  exact foldl_mark_keeps v (fun _ nbr _ hst => hst.mark v nbr) ⟨h.range, h.zero, h.visited⟩

theorem home_of_runLoop {t : VertexRecord} (hne : s ≠ t) {upper : ℤ} {fuel fuel' : ℕ} {st : Sides}
    (hrun : runLoop (round m upper) fuel ⟨.start s, .start t, []⟩ = some st) {marked : Marked}
    (hmarked : runLoop (markNext m st.dst.dist) fuel' ⟨st.vec, (· ∈ st.vec), st.src.dist⟩ =
      some marked) : marked.Home st.dst.dist s := by
  have hhome : st.Home s :=
    (runLoop_keeps (fun _ _ h hstep => h.step hstep) (Sides.home_start hne) hrun).1
  have hstart : Marked.Home st.dst.dist s ⟨st.vec, (· ∈ st.vec), st.src.dist⟩ :=
    ⟨hhome.range, hhome.zero, fun h => decide_eq_true (hhome.met h)⟩
  exact hstart.run hmarked

end

section

variable {s t x y : VertexRecord} {d a b : ℕ} {near : VertexRecord → ℤ} {sides : Sides}
  {st st' : Marked} {v nbr : VertexRecord}

/-- The marked vertices are on shortest paths, with their distance from the source. The array of the
others is as the first search left it. -/
structure Marking (m : Moves VertexRecord (Hop E)) (s t : VertexRecord) (d : ℕ)
    (near : VertexRecord → ℤ) (st : Marked) : Prop where
  sound : ∀ x, st.visited x = true → ∃ i, m.Between s t d i x ∧ st.dist x = i
  rest : ∀ x, st.visited x = false → st.dist x = near x
  queued : ∀ x ∈ st.queue, st.visited x = true

/-- `y` is one step farther from the middle than `x`. -/
def Outward (m : Moves VertexRecord (Hop E)) (s t : VertexRecord) (d a : ℕ)
    (x y : VertexRecord) : Prop :=
  (∃ i, i + 1 ≤ a ∧ m.Between s t d (i + 1) x ∧ m.Between s t d i y) ∨
    ∃ i, a ≤ i ∧ m.Between s t d i x ∧ m.Between s t d (i + 1) y

structure Progress (st st' : Marked) : Prop where
  visited : ∀ x, st.visited x = true → st'.visited x = true
  queue : st.queue ⊆ st'.queue
  new : ∀ x, st'.visited x = true → st.visited x = true ∨ x ∈ st'.queue

theorem Progress.refl (st : Marked) : Progress st st :=
  ⟨fun _ h => h, List.Subset.refl _, fun _ h => .inl h⟩

theorem Progress.trans {st₁ st₂ st₃ : Marked} (h : Progress st₁ st₂) (h' : Progress st₂ st₃) :
    Progress st₁ st₃ where
  visited x hx := h'.visited x (h.visited x hx)
  queue := List.Subset.trans h.queue h'.queue
  new x hx := by
    rcases h'.new x hx with hx | hx
    · exact (h.new x hx).imp_right fun hq => h'.queue hq
    · exact .inr hx

theorem Progress.push {dist : VertexRecord → ℤ} {q : List VertexRecord} (hq : nbr ∈ q) :
    Progress st ⟨st.queue ++ q, update st.visited nbr true, dist⟩ where
  visited x hx := by
    dsimp only
    rw [update_apply]
    split_ifs
    · rfl
    · exact hx
  queue := subset_append_left _ _
  new x hx := by
    dsimp only at hx
    rw [update_apply] at hx
    split_ifs at hx with heq
    · rw [heq]
      exact .inr (mem_append_right _ hq)
    · exact .inl hx

theorem Marking.push (h : Marking m s t d near st) {i : ℕ} (hbetween : m.Between s t d i nbr)
    (dist : VertexRecord → ℤ) (hnbr : dist nbr = i) (hdist : ∀ x, x ≠ nbr → dist x = st.dist x)
    {q : List VertexRecord} (hq : ∀ x ∈ q, x = nbr) : Marking m s t d near
      ⟨st.queue ++ q, update st.visited nbr true, dist⟩ := by
  constructor
  · intro x hx
    by_cases heq : x = nbr
    · subst heq
      exact ⟨i, hbetween, hnbr⟩
    · dsimp only at hx ⊢
      rw [update_of_ne heq] at hx
      rw [hdist x heq]
      exact h.sound x hx
  · intro x hx
    dsimp only at hx ⊢
    rw [update_apply] at hx
    split_ifs at hx with heq
    rw [hdist x heq]
    exact h.rest x hx
  · intro x hx
    dsimp only
    rw [update_apply]
    split_ifs with heq
    · rfl
    · rcases mem_append.mp hx with hx | hx
      · exact h.queued x hx
      · exact absurd (hq x hx) heq

/-- The meeting points are marked, and a marked vertex is in the queue or all its neighbours away from
the middle are marked. -/
structure Marked.Closed (m : Moves VertexRecord (Hop E)) (s t : VertexRecord) (d a : ℕ)
    (near : VertexRecord → ℤ) (st : Marked) : Prop where
  marking : Marking m s t d near st
  middle : ∀ x, m.Between s t d a x → st.visited x = true
  closed : ∀ x, st.visited x = true →
    x ∈ st.queue ∨ ∀ y, m.Adj x y → Outward m s t d a x y → st.visited y = true

theorem Marked.Closed.visited_of_between (hrev : m.Reversible) (hd : m.IsDist s t d)
    (h : st.Closed m s t d a near) (had : a ≤ d) (hq : st.queue = []) {i : ℕ}
    (hx : m.Between s t d i x) : st.visited x = true := by
  have hclosed : ∀ x y, st.visited x = true → m.Adj x y → Outward m s t d a x y →
      st.visited y = true := by
    intro x y hx hadj hout
    rcases h.closed x hx with hin | hclosed
    · rw [hq] at hin
      cases hin
    · exact hclosed y hadj hout
  rcases le_total i a with hia | hai
  · -- towards the source, from the middle down
    induction hia using Nat.decreasingInduction generalizing x with
    | self => exact h.middle x hx
    | of_succ i hi ih =>
      obtain ⟨y, hadj, hy⟩ := hx.exists_succ hrev hd (by omega)
      exact hclosed y x (ih hy) (hrev x y hadj) (.inl ⟨i, hi, hy, hx⟩)
  · induction i, hai using Nat.le_induction generalizing x with
    | base => exact h.middle x hx
    | succ i hi ih =>
      obtain ⟨y, hadj, hy⟩ := hx.exists_pred hrev hd
      exact hclosed y x (ih hy) hadj (.inr ⟨i, hi, hy, hx⟩)

variable (hrev : m.Reversible) (hd : m.IsDist s t d) (hsmall : d ≤ 127)
  (hnear : sides.Near m s t d a b) (hab : a + b = d)
include hrev hd hsmall hnear hab

theorem Marking.mark (h : Marking m s t d sides.src.dist st) (hv : st.visited v = true)
    (hadj : m.Adj v nbr) : Marking m s t d sides.src.dist (st.mark sides.dst.dist v nbr) ∧
      Progress st (st.mark sides.dst.dist v nbr) ∧
      (Outward m s t d a v nbr → (st.mark sides.dst.dist v nbr).visited nbr = true) := by
  obtain ⟨i, hi, hdist⟩ := h.sound v hv
  rcases st.mark_cases sides.dst.dist v nbr with ⟨heq, hstay⟩ | ⟨hvis, heq, hcloser⟩ |
    ⟨hvis, hfar, n, -, heq⟩
  · rw [heq]
    refine ⟨h, .refl st, fun hout => ?_⟩
    -- a vertex one step farther from the middle passes one of the two tests
    by_contra hnot
    obtain ⟨hsrc, hdst⟩ := hstay.resolve_left hnot
    have hrest := h.rest nbr (eq_false_iff.mpr hnot)
    rcases hout with ⟨k, hk, hx, hy⟩ | ⟨k, hk, hx, hy⟩
    · obtain rfl := hi.left.unique _ hx.left
      rw [hnear.src.dist nbr k (by omega) hy.left, toInt8_of_le (by omega)] at hrest
      apply hsrc
      constructor
      · omega
      · rw [hrest, hdist]
        exact (Nat.cast_succ k).symm
    · have hyle := hy.le
      apply hdst
      rw [hnear.dst.dist nbr _ (by omega) hy.right, hnear.dst.dist v _ (by omega) hx.right,
        toInt8_of_le (by omega), toInt8_of_le (by omega)]
      omega
  · have hdist' : st.dist nbr = sides.src.dist nbr := h.rest nbr hvis
    obtain ⟨hreached, hnext⟩ := hcloser
    rw [hdist'] at hreached
    obtain ⟨k, hk, hknbr⟩ := hnear.src.reached nbr hreached
    have hvalue : st.dist nbr = k := by
      rw [hdist', hnear.src.dist nbr k hk hknbr, toInt8_of_le (by omega)]
    obtain rfl : i = k + 1 := by omega
    rw [heq]
    have hpush := h.push (hi.back hrev hd hadj hknbr) st.dist hvalue (fun _ _ => rfl)
      fun x hx => mem_singleton.mp hx
    exact ⟨hpush, .push (mem_singleton_self nbr), fun _ => update_self ..⟩
  · obtain ⟨k, hk, hknbr⟩ := hnear.dst.reached nbr hfar.1
    have hvalue : sides.dst.dist nbr = k := by
      rw [hnear.dst.dist nbr k hk hknbr, toInt8_of_le (by omega)]
    obtain ⟨k', hk', hkv⟩ := hnear.dst.reached v (by omega)
    have hvalue' : sides.dst.dist v = k' := by
      rw [hnear.dst.dist v k' hk' hkv, toInt8_of_le (by omega)]
    have hkd := hi.right.unique _ hkv
    have hbetween := hi.toward hrev hd hadj hknbr (by omega)
    rw [heq]
    have hpush := h.push hbetween (update st.dist nbr (toInt8 (st.dist v + 1))) (by
        rw [update_self, hdist]
        exact toInt8_of_le (hbetween.le.trans hsmall))
      (fun x hx => update_of_ne hx ..) (q := nbr :: replicate (n - 1) nbr) fun x hx => by
        rcases mem_cons.mp hx with hx | hx
        · exact hx
        · exact eq_of_mem_replicate hx
    exact ⟨hpush, .push mem_cons_self, fun _ => update_self ..⟩

theorem Marking.foldl (hops : List (Hop E)) (hsub : hops ⊆ m.next v)
    (h : Marking m s t d sides.src.dist st) (hv : st.visited v = true)
    (hst' : hops.foldl (fun st h => st.mark sides.dst.dist v (m.target h)) st = st') :
    Marking m s t d sides.src.dist st' ∧ Progress st st' ∧
      ∀ b ∈ hops, Outward m s t d a v (m.target b) → st'.visited (m.target b) = true := by
  induction hops generalizing st with
  | nil =>
    obtain rfl := hst'
    exact ⟨h, .refl _, fun b hb => absurd hb not_mem_nil⟩
  | cons b hops ih =>
    obtain ⟨hb, hsub⟩ := cons_subset.mp hsub
    obtain ⟨hmark, hprogress, hfirst⟩ := h.mark hrev hd hsmall hnear hab hv ⟨b, hb, rfl⟩
    obtain ⟨hmark', hprogress', hlater⟩ := ih hsub hmark (hprogress.visited v hv) hst'
    refine ⟨hmark', hprogress.trans hprogress', fun c hc hout => ?_⟩
    rcases mem_cons.mp hc with rfl | hc
    · exact hprogress'.visited _ (hfirst hout)
    · exact hlater c hc hout

theorem Marked.Closed.step (h : st.Closed m s t d a sides.src.dist)
    (hstep : markNext m sides.dst.dist st = some st') : st'.Closed m s t d a sides.src.dist := by
  obtain ⟨v, q, hq, hst'⟩ := markNext_eq_some hstep
  have hv : st.visited v = true := h.marking.queued v (by rw [hq]; exact mem_cons_self)
  have hpop : Marking m s t d sides.src.dist { st with queue := q } :=
    ⟨h.marking.sound, h.marking.rest, fun x hx =>
      h.marking.queued x (by rw [hq]; exact mem_cons_of_mem v hx)⟩
  obtain ⟨hmark, hprogress, hall⟩ := hpop.foldl hrev hd hsmall hnear hab (m.next v)
    (List.Subset.refl _) hv hst'.symm
  refine ⟨hmark, fun x hx => hprogress.visited x (h.middle x hx), fun x hx => ?_⟩
  rcases hprogress.new x hx with hold | hnew
  · rcases h.closed x hold with hin | hclosed
    · rw [hq] at hin
      rcases mem_cons.mp hin with rfl | hin
      · right
        rintro y ⟨b, hb, rfl⟩ hout
        exact hall b hb hout
      · exact .inl (hprogress.queue hin)
    · exact .inr fun y hadj hout => hprogress.visited y (hclosed y hadj hout)
  · exact .inl hnew

/-- The second search marks the vertices of the shortest paths, with their distances from the
source. -/
theorem marked_of_runLoop {fuel : ℕ} (hrun : runLoop (markNext m sides.dst.dist) fuel
      ⟨sides.vec, (· ∈ sides.vec), sides.src.dist⟩ = some st) :
    (∀ x, st.visited x = true ↔ ∃ i, m.Between s t d i x) ∧
      ∀ x i, m.Between s t d i x → st.dist x = i := by
  have hvec : ∀ x, x ∈ sides.vec ↔ m.Between s t d a x := by
    intro x
    have hb : d - a = b := by omega
    rw [hnear.vec]
    constructor
    · exact fun h => ⟨by omega, h.1, by rw [hb]; exact h.2⟩
    · intro h
      have hright := h.right
      rw [hb] at hright
      exact ⟨h.left, hright⟩
  have hstart : Marked.Closed m s t d a sides.src.dist
      ⟨sides.vec, (· ∈ sides.vec), sides.src.dist⟩ := by
    refine ⟨⟨fun x hx => ?_, fun x _ => rfl, fun x hx => decide_eq_true hx⟩, fun x hx => ?_,
      fun x hx => .inl (of_decide_eq_true hx)⟩
    · have hbetween := (hvec x).mp (of_decide_eq_true hx)
      refine ⟨a, hbetween, ?_⟩
      rw [← toInt8_of_le (by omega)]
      exact hnear.src.dist x a le_rfl hbetween.left
    · exact decide_eq_true ((hvec x).mpr hx)
  obtain ⟨hclosed, hend⟩ := runLoop_keeps
    (fun _ _ h hstep => Marked.Closed.step hrev hd hsmall hnear hab h hstep) hstart hrun
  have hvisited : ∀ x i, m.Between s t d i x → st.visited x = true := fun x i hx =>
    hclosed.visited_of_between hrev hd (by omega) (markNext_eq_none hend) hx
  refine ⟨fun x => ⟨fun hx => ?_, fun ⟨i, hx⟩ => hvisited x i hx⟩, fun x i hx => ?_⟩
  · obtain ⟨i, hi, -⟩ := hclosed.marking.sound x hx
    exact ⟨i, hi⟩
  · obtain ⟨k, hk, hdist⟩ := hclosed.marking.sound x (hvisited x i hx)
    rw [hdist, hk.left.unique _ hx.left]

end

section

variable {st : Marked} {s t : VertexRecord} {w : List (Hop E)}

theorem dist_last (h : m.Guarded (onward m st s) s w) :
    st.dist (m.last s w) = st.dist s + w.length := by
  induction w with
  | nil => simp
  | cons b w ih =>
    have hstep := h.2.2
    simp only [onward, decide_eq_true_eq] at hstep
    rw [Moves.last_cons, hstep.2, ih h.1, length_cons, Nat.cast_succ]
    ring

variable (hrange : ∀ y, -128 ≤ st.dist y ∧ st.dist y ≤ 127)
include hrange

theorem mem_enumerate : w ∈ enumerate m st s t ↔ m.Guarded (onward m st s) s w ∧
    m.last s w = t ∧ ∀ v, v <:+ w → v ≠ w → m.last s v ≠ t := by
  have hbound : ∀ v, m.Guarded (onward m st s) s v → v.length < 256 := by
    intro v hv
    have hlast := dist_last hv
    have hlow := (hrange s).1
    have hup := (hrange (m.last s v)).2
    omega
  have hnil : m.Guarded (onward m st s) s [] := trivial
  unfold enumerate
  rw [m.mem_dfs hbound le_rfl hnil]
  simp

theorem mem_enumerate_of_marked (hrev : m.Reversible) {d : ℕ} (hd : m.IsDist s t d)
    (hvis : ∀ x, st.visited x = true ↔ ∃ i, m.Between s t d i x)
    (hdist : ∀ x i, m.Between s t d i x → st.dist x = i) :
    w ∈ enumerate m st s t ↔ m.IsWalk s w ∧ m.last s w = t ∧ w.length = d := by
  have hstart : st.dist s = 0 :=
    hdist s 0 (.of_joins hrev hd (m.joins_zero.mpr rfl) (hd.1.symm hrev) (zero_add d))
  have hend : st.dist t = d :=
    hdist t d (.of_joins hrev hd hd.1 (m.joins_zero.mpr rfl) (add_zero d))
  rw [mem_enumerate hrange]
  constructor
  · rintro ⟨hguard, hlast, -⟩
    refine ⟨hguard.isWalk, hlast, ?_⟩
    have hcount := dist_last hguard
    rw [hlast] at hcount
    omega
  · rintro ⟨hwalk, hlast, hlen⟩
    have hpart : ∀ v, v <:+ w → m.Between s t d v.length (m.last s v) := fun v hv =>
      .of_suffix hrev hd hwalk hlast hlen hv
    refine ⟨?_, hlast, fun v hv hne hvt => ?_⟩
    · -- every hop of a shortest path is allowed
      have hguard : ∀ v, v <:+ w → m.Guarded (onward m st s) s v := by
        intro v
        induction v with
        | nil => exact fun _ => trivial
        | cons b v ih =>
          intro hv
          have hv' := (suffix_cons b v).trans hv
          obtain ⟨u, rfl⟩ := hv
          refine ⟨ih hv', (hwalk.append m).1.2, ?_⟩
          have hb := hpart (b :: v) (suffix_append u _)
          rw [Moves.last_cons] at hb
          simp only [onward, decide_eq_true_eq]
          refine ⟨(hvis _).mpr ⟨_, hb⟩, ?_⟩
          rw [hdist _ _ hb, hdist _ _ (hpart v hv')]
          exact Nat.cast_succ _
      exact hguard w suffix_rfl
    · have hleft := (hpart v hv).left
      rw [hvt] at hleft
      have hlen' := hd.unique _ hleft
      exact hne (hv.eq_of_length (by omega))

end

end Neug.Execution
