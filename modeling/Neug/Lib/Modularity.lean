import Mathlib

/-! Modularity of a weighted graph on a finite set of nodes: as a sum over pairs of one block,
under coarsening, and under any number of nodes moving at once. -/
namespace Neug.Lib.Modularity

open Finset

variable {ι ι' κ K : Type} [DecidableEq κ] [Field K]

/-- The sum of `B` over the ordered pairs of nodes of one block. -/
def within (s : Finset ι) (B : ι → ι → K) (f : ι → κ) : K :=
  ∑ u ∈ s, ∑ v ∈ s, if f u = f v then B u v else 0

def degree (s : Finset ι) (W : ι → ι → K) (u : ι) : K :=
  ∑ v ∈ s, W u v

def excess (s : Finset ι) (W : ι → ι → K) (γ m : K) (u v : ι) : K :=
  W u v - γ * (degree s W u * degree s W v) / (2 * m)

/-- The modularity of the blocks `f`, whose names lie in `t`. -/
def modularity (s : Finset ι) (t : Finset κ) (W : ι → ι → K) (γ m : K) (f : ι → κ) : K :=
  within s W f / (2 * m) - γ * ∑ c ∈ t, ((∑ u ∈ s with f u = c, degree s W u) / (2 * m)) ^ 2

variable {t : Finset κ} {s : Finset ι} {f : ι → κ}

theorem sum_sq_blocks (hf : ∀ u ∈ s, f u ∈ t) (k : ι → K) :
    ∑ c ∈ t, (∑ u ∈ s with f u = c, k u) ^ 2 = within s (fun u v => k u * k v) f := by
  have hblock : ∀ c ∈ t, (∑ u ∈ s with f u = c, k u) ^ 2 =
      ∑ u ∈ s with f u = c, ∑ v ∈ s, if f u = f v then k u * k v else 0 := by
    intro c _
    rw [pow_two, sum_mul_sum]
    refine sum_congr rfl fun u hu => ?_
    rw [sum_filter]
    refine sum_congr rfl fun v _ => ?_
    simp [(mem_filter.mp hu).2, eq_comm]
  rw [sum_congr rfl hblock, sum_fiberwise_of_maps_to hf, within]

theorem modularity_eq_within (hf : ∀ u ∈ s, f u ∈ t) (W : ι → ι → K) (γ m : K) :
    modularity s t W γ m f = within s (excess s W γ m) f / (2 * m) := by
  have hpen : γ * ∑ c ∈ t, ((∑ u ∈ s with f u = c, degree s W u) / (2 * m)) ^ 2 =
      within s (fun u v => γ * (degree s W u * degree s W v) / (2 * m)) f / (2 * m) := by
    simp only [sum_sq_blocks hf, within, sum_div, mul_sum]
    refine sum_congr rfl fun u _ => sum_congr rfl fun v _ => ?_
    split_ifs <;> ring
  rw [modularity, hpen, ← sub_div]
  congr 1
  simp only [within, excess, ← sum_sub_distrib]
  refine sum_congr rfl fun u _ => sum_congr rfl fun v _ => ?_
  split_ifs <;> simp

section

variable [DecidableEq ι'] {s : Finset ι} {s' : Finset ι'} {p : ι → ι'} {B : ι → ι → K}
  {B' : ι' → ι' → K}

/-- `B'` is `B` summed over the pairs of two blocks of `p`. -/
def IsCoarse (s : Finset ι) (s' : Finset ι') (p : ι → ι') (B : ι → ι → K)
    (B' : ι' → ι' → K) : Prop :=
  ∀ a ∈ s', ∀ b ∈ s', B' a b = ∑ u ∈ s with p u = a, ∑ v ∈ s with p v = b, B u v

section

variable (hp : ∀ u ∈ s, p u ∈ s') (h : IsCoarse s s' p B B')
include hp h

theorem within_coarse (f : ι' → κ) : within s' B' f = within s B (f ∘ p) := by
  have hpair : ∀ a ∈ s', ∀ b ∈ s', (if f a = f b then B' a b else 0) =
      ∑ u ∈ s with p u = a, ∑ v ∈ s with p v = b, if f (p u) = f (p v) then B u v else 0 := by
    intro a ha b hb
    rw [h a ha b hb]
    split_ifs with hab
    · refine sum_congr rfl fun u hu => sum_congr rfl fun v hv => ?_
      rw [(mem_filter.mp hu).2, (mem_filter.mp hv).2, if_pos hab]
    · symm
      refine sum_eq_zero fun u hu => sum_eq_zero fun v hv => ?_
      rw [(mem_filter.mp hu).2, (mem_filter.mp hv).2, if_neg hab]
  calc within s' B' f = ∑ a ∈ s', ∑ b ∈ s', ∑ u ∈ s with p u = a, ∑ v ∈ s with p v = b,
          if f (p u) = f (p v) then B u v else 0 :=
        sum_congr rfl fun a ha => sum_congr rfl fun b hb => hpair a ha b hb
    _ = ∑ a ∈ s', ∑ u ∈ s with p u = a, ∑ b ∈ s', ∑ v ∈ s with p v = b,
          if f (p u) = f (p v) then B u v else 0 :=
        sum_congr rfl fun a _ => sum_comm
    _ = ∑ a ∈ s', ∑ u ∈ s with p u = a, ∑ v ∈ s, if f (p u) = f (p v) then B u v else 0 :=
        sum_congr rfl fun a _ => sum_congr rfl fun u _ => sum_fiberwise_of_maps_to hp _
    _ = within s B (f ∘ p) := sum_fiberwise_of_maps_to hp _

theorem degree_coarse {a : ι'}
    (ha : a ∈ s') : degree s' B' a = ∑ u ∈ s with p u = a, degree s B u := by
  rw [degree, sum_congr rfl fun b hb => h a ha b hb, sum_comm]
  exact sum_congr rfl fun u _ => sum_fiberwise_of_maps_to hp _

theorem excess_coarse (γ m : K) : IsCoarse s s' p (excess s B γ m) (excess s' B' γ m) := by
  intro a ha b hb
  simp only [excess, sum_sub_distrib, ← sum_div, ← mul_sum, ← sum_mul]
  rw [h a ha b hb, degree_coarse hp h ha, degree_coarse hp h hb]

end

/-- Blocks of coarse nodes have the modularity of the blocks of nodes they stand for. -/
theorem modularity_coarse {t : Finset κ} {f : ι' → κ} (hp : ∀ u ∈ s, p u ∈ s')
    (hf : ∀ a ∈ s', f a ∈ t) (h : IsCoarse s s' p B B') (γ m : K) :
    modularity s' t B' γ m f = modularity s t B γ m (f ∘ p) := by
  have hfp : ∀ u ∈ s, (f ∘ p) u ∈ t := fun u hu => hf _ (hp u hu)
  rw [modularity_eq_within hf, modularity_eq_within hfp, within_coarse hp (excess_coarse hp h γ m)]

end

theorem modularity_congr {κ' : Type} [DecidableEq κ']
    {t' : Finset κ'} {g : ι → κ'} (hf : ∀ u ∈ s, f u ∈ t) (hg : ∀ u ∈ s, g u ∈ t')
    (h : ∀ u ∈ s, ∀ v ∈ s, f u = f v ↔ g u = g v) (W : ι → ι → K) (γ m : K) :
    modularity s t W γ m f = modularity s t' W γ m g := by
  rw [modularity_eq_within hf, modularity_eq_within hg]
  congr 1
  refine sum_congr rfl fun u hu => sum_congr rfl fun v hv => ?_
  simp [h u hu v hv]

section

variable [DecidableEq ι]

/-- What node `u` alone gains by leaving its block for `g u` while all others stay. -/
def gain (s : Finset ι) (B : ι → ι → K) (f g : ι → κ) (u : ι) : K :=
  ∑ v ∈ s with v ≠ u, ((if f v = g u then B u v else 0) - if f v = f u then B u v else 0)

variable {s : Finset ι}

theorem gain_of_eq {f g : ι → κ} {u : ι} (B : ι → ι → K) (h : g u = f u) : gain s B f g u = 0 := by
  simp [gain, h]

theorem gain_of_ne {f g : ι → κ} {u : ι} (B : ι → ι → K) (hu : u ∈ s) (h : g u ≠ f u) :
    gain s B f g u = ∑ v ∈ s, (if f v = g u then B u v else 0) -
      ∑ v ∈ s, (if f v = f u then B u v else 0) + B u u := by
  rw [← sum_sub_distrib, ← sum_filter_add_sum_filter_not s (fun v => v = u), sum_filter,
    sum_ite_eq' s u, if_pos hu, if_neg (Ne.symm h), if_pos rfl, gain]
  ring

def overlap (f g : ι → κ) (u v : ι) : K :=
  (if g u = g v then 1 else 0) + (if f u = f v then 1 else 0) -
    (if f v = g u then 1 else 0) - if f u = g v then 1 else 0

def interaction (s : Finset ι) (B : ι → ι → K) (f g : ι → κ) : K :=
  ∑ u ∈ s, ∑ v ∈ s with v ≠ u, overlap f g u v * B u v

/-- The change made by any set of simultaneous moves: the gains of the single moves and the
interaction of the pairs. -/
theorem within_move {B : ι → ι → K} (hB : ∀ u ∈ s, ∀ v ∈ s, B u v = B v u) (f g : ι → κ) :
    within s B g = within s B f + 2 * ∑ u ∈ s, gain s B f g u + interaction s B f g := by
  have hdiag : ∀ h : ι → κ, within s B h = ∑ u ∈ s, B u u +
      ∑ u ∈ s, ∑ v ∈ s with v ≠ u, if h u = h v then B u v else 0 := by
    intro h
    rw [← sum_add_distrib]
    refine sum_congr rfl fun u hu => ?_
    rw [← sum_filter_add_sum_filter_not s (fun v => v = u), sum_filter, sum_ite_eq' s u,
      if_pos hu, if_pos rfl]
  have hswap : ∑ u ∈ s, gain s B f g u = ∑ u ∈ s, ∑ v ∈ s with v ≠ u,
        ((if f u = g v then B u v else 0) - if f u = f v then B u v else 0) := by
    simp only [gain, sum_filter]
    rw [sum_comm]
    refine sum_congr rfl fun u hu => sum_congr rfl fun v hv => ?_
    rw [hB v hv u hu]
    simp [ne_comm]
  have hpairs : ∑ u ∈ s, ∑ v ∈ s with v ≠ u, (if g u = g v then B u v else 0) =
      ∑ u ∈ s, ∑ v ∈ s with v ≠ u, (if f u = f v then B u v else 0) +
        (∑ u ∈ s, gain s B f g u + ∑ u ∈ s, gain s B f g u) + interaction s B f g := by
    nth_rewrite 2 [hswap]
    simp only [gain, interaction, ← sum_add_distrib]
    refine sum_congr rfl fun u _ => sum_congr rfl fun v _ => ?_
    simp only [overlap, @eq_comm κ (f v) (f u)]
    split_ifs <;> ring
  rw [hdiag f, hdiag g, hpairs]
  ring

theorem within_move_single {B : ι → ι → K}
    (hB : ∀ u ∈ s, ∀ v ∈ s, B u v = B v u) {f g : ι → κ} {u : ι} (hu : u ∈ s)
    (hfg : ∀ v ∈ s, v ≠ u → g v = f v) : within s B g = within s B f + 2 * gain s B f g u := by
  have hgain : ∑ v ∈ s, gain s B f g v = gain s B f g u :=
    sum_eq_single_of_mem u hu fun v hv hne => gain_of_eq B (hfg v hv hne)
  have hinteraction : interaction s B f g = 0 := by
    refine sum_eq_zero fun v hv => sum_eq_zero fun w hw => ?_
    obtain ⟨hw, hne⟩ := mem_filter.mp hw
    -- one of the two nodes stays, so that the promises to the other are kept
    have hoverlap : (overlap f g v w : K) = 0 := by
      by_cases hvu : v = u
      · have hwu : w ≠ u := fun h => hne (h.trans hvu.symm)
        simp only [overlap, hfg w hw hwu, @eq_comm κ (f w) (g v)]
        ring
      · simp only [overlap, hfg v hv hvu, @eq_comm κ (f w) (f v)]
        ring
    rw [hoverlap, zero_mul]
  rw [within_move hB f g, hgain, hinteraction, add_zero]

end

end Neug.Lib.Modularity
