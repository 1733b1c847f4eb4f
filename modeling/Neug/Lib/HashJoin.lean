import Neug.Lib.OuterRows

/-! Joins of positions by a key. One side goes into a map from keys to positions, and the positions
of the other side look their keys up. -/
namespace Neug.Lib
open List Option

variable {κ β : Type}

section

variable [DecidableEq κ]

def buildMap (key : ℕ → κ) (keep : ℕ → Bool) (n : ℕ) : κ → List ℕ :=
  (List.range n).foldl (fun map j =>
    if keep j then Function.update map (key j) (map (key j) ++ [j]) else map) fun _ => []

theorem buildMap_apply (key : ℕ → κ) (keep : ℕ → Bool) (n : ℕ) (k : κ) :
    buildMap key keep n k = (range n).filter fun j => keep j && decide (key j = k) := by
  unfold buildMap
  induction n with
  | zero => rfl
  | succ n ih =>
    rw [range_succ, foldl_append, foldl_cons, foldl_nil]
    by_cases hkeep : keep n = true
    · by_cases hk : key n = k
      · subst hk
        rw [ih]
        simp [hkeep]
      · rw [if_pos hkeep, Function.update_of_ne (Ne.symm hk), ih]
        simp [hk]
    · rw [if_neg hkeep, ih]
      simp [hkeep]

variable (left right : ℕ → κ) (n m : ℕ)

def sharedMap : κ → List ℕ := buildMap right (fun j => right j ∈ (List.range n).map left) m

/-- The pairs of positions with equal keys. The larger side goes into the map, without the keys that
the smaller side does not have. -/
def hashPairs : List (ℕ × Option ℕ) :=
  if n < m then (List.range n).flatMap fun i => plain i (sharedMap left right n m (left i))
  else (List.range m).flatMap fun j =>
    (sharedMap right left m n (right j)).map fun i => (i, some j)

variable {left right n m}

theorem sharedMap_apply {i : ℕ} (hi : i < n) :
    sharedMap left right n m (left i) = (range m).filter fun j => left i = right j := by
  unfold sharedMap
  rw [buildMap_apply]
  apply filter_congr
  intro j _
  by_cases h : left i = right j
  · have hmem : right j ∈ (range n).map left := mem_map.mpr ⟨i, mem_range.mpr hi, h⟩
    simp [hmem, h]
  · simp [h, Ne.symm h]

theorem hashPairs_perm : (hashPairs left right n m).Perm
    ((range n).flatMap fun i => plain i ((range m).filter fun j => left i = right j)) := by
  unfold hashPairs
  split_ifs with h
  · apply List.Perm.of_eq
    apply flatMap_congr
    intro i hi
    rw [sharedMap_apply (mem_range.mp hi)]
  · have hright : ((range m).flatMap fun j =>
        (sharedMap right left m n (right j)).map fun i => (i, some j)) =
        (range m).flatMap fun j =>
          ((range n).filter fun i => right j = left i).map fun i => (i, some j) := by
      apply flatMap_congr
      intro j hj
      rw [sharedMap_apply (mem_range.mp hj)]
    rw [hright]
    apply (perm_ext_iff_of_nodup ?_ ?_).mpr
    · intro x
      simp only [plain, mem_flatMap, List.mem_map, mem_filter, decide_eq_true_eq]
      constructor
      · rintro ⟨j, hj, i, ⟨hi, heq⟩, rfl⟩
        exact ⟨i, hi, j, ⟨hj, heq.symm⟩, rfl⟩
      · rintro ⟨i, hi, j, ⟨hj, heq⟩, rfl⟩
        exact ⟨j, hj, i, ⟨hi, heq.symm⟩, rfl⟩
    · refine nodup_flatMap.mpr ⟨fun j _ => ?_, ?_⟩
      · exact (nodup_range.filter _).map fun i i' heq => (Prod.mk.inj heq).1
      · apply nodup_range.imp
        intro j j' hne x hx hx'
        obtain ⟨i, -, rfl⟩ := mem_map.mp hx
        obtain ⟨i', -, heq⟩ := mem_map.mp hx'
        exact hne (some.inj (Prod.mk.inj heq).2).symm
    · refine nodup_flatMap.mpr ⟨fun i _ => ?_, ?_⟩
      · exact (nodup_range.filter _).map fun j j' heq => some.inj (Prod.mk.inj heq).2
      · apply nodup_range.imp
        intro i i' hne x hx hx'
        exact hne ((fst_of_mem_plain x hx).symm.trans (fst_of_mem_plain x hx'))

end

/-- Rows of positions agree up to order exactly if they do so at every position. -/
theorem flatMap_perm_iff {γ : Type} [DecidableEq γ] {f g : ℕ → List (ℕ × γ)}
    (hf : ∀ i, ∀ x ∈ f i, x.1 = i) (hg : ∀ i, ∀ x ∈ g i, x.1 = i) (n : ℕ) :
    ((range n).flatMap f).Perm ((range n).flatMap g) ↔ ∀ i < n, (f i).Perm (g i) := by
  constructor
  · intro h i hi
    have hfiber := h.filter fun x => decide (x.1 = i)
    rw [← fiber, ← fiber, fiber_flatMap_range hf, fiber_flatMap_range hg, if_pos hi, if_pos hi]
      at hfiber
    exact hfiber
  · intro h
    apply perm_of_fibers
    intro i
    rw [fiber_flatMap_range hf, fiber_flatMap_range hg]
    split_ifs with hi
    · exact h i hi
    · exact .refl _

theorem plain_perm_iff [DecidableEq β] {i : ℕ} {bs bs' : List β} :
    (plain i bs).Perm (plain i bs') ↔ bs.Perm bs' := by
  exact map_perm_map_iff fun b b' h => some.inj (Prod.mk.inj h).2

theorem padded_perm_iff [DecidableEq β] {i : ℕ} {bs bs' : List β} :
    (padded i bs).Perm (padded i bs') ↔ bs.Perm bs' := by
  cases bs with
  | nil => cases bs' <;> simp [padded]
  | cons b bs =>
    cases bs' with
    | nil => simp [padded]
    | cons b' bs' => exact plain_perm_iff

theorem filter_range_perm_iff {P Q : ℕ → Bool} {m : ℕ} :
    ((range m).filter P).Perm ((range m).filter Q) ↔ ∀ j < m, P j = Q j := by
  constructor
  · intro h j hj
    have hmem := h.mem_iff (a := j)
    simp only [mem_filter, mem_range, hj, true_and] at hmem
    exact Bool.eq_iff_iff.mpr hmem
  · intro h
    apply List.Perm.of_eq
    apply filter_congr
    intro j hj
    exact h j (mem_range.mp hj)

/-- Positions kept in too narrow numbers are the right ones if and only if none is too large and
nothing else was found. -/
theorem map_mod_perm_iff {P Q : ℕ → Bool} {m w : ℕ} (hPQ : ∀ j < m, P j = true → Q j = true) :
    (((range m).filter Q).map (· % w)).Perm ((range m).filter P) ↔
      ∀ j < m, Q j = true → P j = true ∧ j % w = j := by
  constructor
  · intro h
    have hsub : ((range m).filter P).Sublist ((range m).filter Q) := by
      have hfilter : (range m).filter P = ((range m).filter Q).filter P := by
        rw [List.filter_filter]
        apply filter_congr
        intro j hj
        cases hp : P j with
        | false => rfl
        | true => rw [hPQ j (mem_range.mp hj) hp, Bool.and_self]
      rw [hfilter]
      exact filter_sublist
    have hlen : ((range m).filter Q).length = ((range m).filter P).length := by
      simpa using h.length_eq
    have heq := hsub.eq_of_length hlen.symm
    intro j hj hq
    have hmem : j ∈ (range m).filter P := by
      rw [heq]
      exact mem_filter.mpr ⟨mem_range.mpr hj, hq⟩
    obtain ⟨j', -, rfl⟩ := mem_map.mp (h.mem_iff.mpr hmem)
    exact ⟨(mem_filter.mp hmem).2, Nat.mod_mod ..⟩
  · intro h
    have hmap : ((range m).filter Q).map (· % w) = (range m).filter Q := by
      conv_rhs => rw [← map_id ((range m).filter Q)]
      apply map_congr_left
      intro j hj
      obtain ⟨hj, hq⟩ := mem_filter.mp hj
      exact (h j (mem_range.mp hj) hq).2
    have hfilter : (range m).filter Q = (range m).filter P := by
      apply filter_congr
      intro j hj
      have hj := mem_range.mp hj
      rw [Bool.eq_iff_iff]
      exact ⟨fun hq => (h j hj hq).1, hPQ j hj⟩
    rw [hmap, hfilter]

end Neug.Lib
