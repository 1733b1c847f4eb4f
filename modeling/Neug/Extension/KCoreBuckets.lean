import Neug.Extension.KCore
import Neug.Lib.Buckets

/-! The arrays of the peeling. The bucket sort accesses them in range and sorts the vertices by
degree; lowering a degree keeps them sorted. -/
namespace Neug.KCore

open Neug.Lib Neug.Lib.Buckets List Option Function

section

variable {deg : List ℕ} {md : ℕ} (hmd : ∀ d ∈ deg, d ≤ md)

include hmd

theorem countDegrees_eq : ∃ bin, countDegrees deg (replicate (md + 2) 0) = some bin ∧
    bin.length = md + 2 ∧ ∀ d, bin.getD d 0 = deg.count d := by
  have hzero : ∀ d, (replicate (md + 2) 0).getD d 0 = 0 := by
    intro d
    rw [getD_eq_getElem?_getD, getElem?_replicate]
    split_ifs <;> rfl
  refine foldlM_invariant
    (fun pre (bin : List ℕ) => bin.length = md + 2 ∧ ∀ d, bin.getD d 0 = pre.count d)
    ⟨by simp, hzero⟩ ?_
  rintro pre k post bin hl ⟨hlen, hcount⟩
  have hk : k < bin.length := by
    have := hmd k (by rw [hl]; simp)
    omega
  refine ⟨bin.set k (bin.getD k 0 + 1), ?_, by simpa using hlen, ?_⟩
  · rw [getElem?_eq_getD hk 0]
    exact setChecked_eq hk _
  · intro d
    rw [congrFun (getD_set hk _ 0) d, update_apply, hcount, hcount]
    by_cases hdk : d = k
    · subst hdk
      simp
    · simp [hdk, Ne.symm hdk]

omit hmd in
theorem classStarts_eq {bin : List ℕ} (hlen : bin.length = md + 2)
    (hcount : ∀ d, bin.getD d 0 = deg.count d) :
    ∃ s, classStarts md bin = some s ∧ s.1.length = md + 2 ∧
      ∀ d ≤ md, s.1.getD d 0 = below deg d := by
  have hloop := foldlM_invariant (l := range (md + 1)) (s := (bin, 0))
    (f := fun (s : List ℕ × ℕ) d => do
      let num ← s.1[d]?
      let bin ← setChecked s.1 d s.2
      pure (bin, s.2 + num))
    (fun pre s => s.1.length = md + 2 ∧ s.2 = below deg pre.length ∧
      ∀ d, s.1.getD d 0 = if d < pre.length then below deg d else deg.count d)
    ⟨hlen, by simp [below], by simpa using hcount⟩ ?_
  · obtain ⟨s, hs, hlen', -, hval⟩ := hloop
    refine ⟨s, hs, hlen', ?_⟩
    intro d hd
    rw [hval, if_pos (by simpa using Nat.lt_succ_of_le hd)]
  · rintro pre d post ⟨bin, start⟩ hl ⟨hlen', hstart, hval⟩
    obtain ⟨rfl, hlt⟩ := eq_length_of_range hl
    have hbin : pre.length < bin.length := by
      have : bin.length = md + 2 := hlen'
      omega
    refine ⟨(bin.set pre.length start, start + bin.getD pre.length 0), ?_, by simpa using hlen',
      ?_, ?_⟩
    · simp only [getElem?_eq_getD hbin 0, setChecked_eq hbin]
      rfl
    · have hnum := hval pre.length
      rw [if_neg (lt_irrefl _)] at hnum
      simp only [length_append, length_singleton, below_succ]
      rw [← hnum, ← hstart]
    · intro d
      have hnow := congrFun (getD_set hbin start 0) d
      simp only [hnow, update_apply, length_append, length_singleton]
      by_cases hdp : d = pre.length
      · rw [if_pos hdp, if_pos (by omega), hdp]
        exact hstart
      · rw [if_neg hdp, hval]
        by_cases hlt' : d < pre.length
        · rw [if_pos hlt', if_pos (by omega)]
        · rw [if_neg hlt', if_neg (by omega)]

theorem placeVertices_eq {bin : List ℕ} (hlen : bin.length = md + 2)
    (hstart : ∀ d ≤ md, bin.getD d 0 = below deg d) : ∃ s, (range deg.length).foldlM placeVertex
        ⟨deg, bin, replicate deg.length 0, replicate deg.length 0⟩ = some s ∧
      s.deg = deg ∧ s.bin.length = md + 2 ∧ s.vert.length = deg.length ∧
      s.pos.length = deg.length ∧ (∀ d ≤ md, s.bin.getD d 0 = below deg (d + 1)) ∧
      ∀ v < deg.length, s.pos.getD v 0 = rank deg v ∧ s.vert.getD (rank deg v) 0 = v := by
  have hloop := foldlM_invariant (l := range deg.length) (f := placeVertex)
    (s := ⟨deg, bin, replicate deg.length 0, replicate deg.length 0⟩)
    (fun pre s => s.deg = deg ∧ s.bin.length = md + 2 ∧ s.vert.length = deg.length ∧
      s.pos.length = deg.length ∧
      (∀ d ≤ md, s.bin.getD d 0 = below deg d + (deg.take pre.length).count d) ∧
      ∀ v < pre.length, s.pos.getD v 0 = rank deg v ∧ s.vert.getD (rank deg v) 0 = v)
    ⟨rfl, hlen, by simp, by simp, by simpa using hstart, by simp⟩ ?_
  · obtain ⟨s, hs, hdeg, hbin, hvert, hpos, hval, hplaces⟩ := hloop
    refine ⟨s, hs, hdeg, hbin, hvert, hpos, ?_, by simpa using hplaces⟩
    intro d hd
    rw [hval d hd, length_range, take_length, below_succ]
  · rintro pre v post s hl ⟨hdeg, hbin, hvert, hpos, hval, hplaces⟩
    obtain ⟨rfl, hv⟩ := eq_length_of_range hl
    obtain ⟨d, hd⟩ : ∃ d, deg.getD pre.length 0 = d := ⟨_, rfl⟩
    have hdm : d ≤ md := by
      rw [← hd, getD_eq_getElem _ _ hv]
      exact hmd _ (getElem_mem hv)
    have hrank : s.bin.getD d 0 = rank deg pre.length := by
      rw [hval d hdm, rank, hd]
    have hr := rank_lt_length hv
    have hdbin : d < s.bin.length := by omega
    have hvpos : pre.length < s.pos.length := by omega
    have hrvert : rank deg pre.length < s.vert.length := by omega
    refine ⟨{ s with
      bin := s.bin.set d (rank deg pre.length + 1)
      vert := s.vert.set (rank deg pre.length) pre.length
      pos := s.pos.set pre.length (rank deg pre.length) }, ?_, hdeg, by simpa using hbin,
      by simpa using hvert, by simpa using hpos, ?_, ?_⟩
    · simp only [placeVertex, hdeg, getElem?_eq_getD hv 0, hd, bind_eq_bind,
        bind_some, getElem?_eq_getD hdbin 0, hrank, setChecked_eq hvpos,
        setChecked_eq hrvert, setChecked_eq hdbin]
      rfl
    · intro e he
      have htake : deg.take (pre.length + 1) = deg.take pre.length ++ [d] := by
        rw [take_add_one, getElem?_eq_getD hv 0, hd]
        rfl
      have hnow := congrFun (getD_set hdbin (rank deg pre.length + 1) 0) e
      simp only [hnow, update_apply, length_append, length_singleton, htake]
      by_cases hed : e = d
      · rw [hed, ← hrank, hval d hdm]
        simp [add_assoc]
      · rw [if_neg hed, hval e he]
        simp [Ne.symm hed]
    · intro v hv'
      simp only [length_append, length_singleton] at hv'
      have hposnow := congrFun (getD_set hvpos (rank deg pre.length) 0) v
      have hvertnow := congrFun (getD_set hrvert pre.length 0) (rank deg v)
      simp only [hposnow, hvertnow, update_apply]
      by_cases hvp : v = pre.length
      · subst hvp
        simp
      · have hne : rank deg v ≠ rank deg pre.length := fun heq => hvp (rank_inj (by omega) hv heq)
        rw [if_neg hvp, if_neg hne]
        exact hplaces v (by omega)

omit hmd in
theorem restoreStarts_eq {bin : List ℕ} (hlen : bin.length = md + 2)
    (hend : ∀ d ≤ md, bin.getD d 0 = below deg (d + 1)) :
    ∃ bin', restoreStarts md bin = some bin' ∧ bin'.length = md + 2 ∧
      ∀ d ≤ md, bin'.getD d 0 = below deg d := by
  have hloop := foldlM_invariant (l := (range md).reverse) (s := bin)
    (f := fun (bin : List ℕ) d => do
      let start ← bin[d]?
      setChecked bin (d + 1) start)
    (fun pre (now : List ℕ) => now.length = md + 2 ∧ ∀ e ≤ md, now.getD e 0 =
      if e + pre.length ≤ md then below deg (e + 1) else below deg e)
    ⟨hlen, fun e he => by simpa [he] using hend e he⟩ ?_
  · obtain ⟨now, hnow, hlen', hval⟩ := hloop
    have h0 : 0 < now.length := by omega
    refine ⟨now.set 0 0, ?_, by simpa using hlen', ?_⟩
    · rw [restoreStarts, hnow]
      exact setChecked_eq h0 0
    · intro d hd
      rw [congrFun (getD_set h0 0 0) d, update_apply]
      by_cases hd0 : d = 0
      · rw [if_pos hd0, hd0]
        simp [below]
      · rw [if_neg hd0, hval d hd, if_neg (by simp; omega)]
  · rintro pre d post now hl ⟨hlen', hval⟩
    -- the loop runs downwards: `d` and the places behind it make up the whole range
    have hrev : range md = post.reverse ++ d :: pre.reverse := by
      have := congrArg List.reverse hl
      simpa using this
    obtain ⟨hd, hdlt⟩ := eq_length_of_range hrev
    have hsum : md = d + 1 + pre.length := by
      have := congrArg List.length hrev
      simp at this hd
      omega
    have hread : d < now.length := by omega
    have hwrite : d + 1 < now.length := by omega
    refine ⟨now.set (d + 1) (now.getD d 0), ?_, by simpa using hlen', ?_⟩
    · rw [getElem?_eq_getD hread 0]
      exact setChecked_eq hwrite _
    · intro e he
      rw [congrFun (getD_set hwrite _ 0) e, update_apply, length_append, length_singleton]
      by_cases hed : e = d + 1
      · rw [if_pos hed, hval d (by omega), if_pos (by omega), if_neg (by omega), hed]
      · rw [if_neg hed, hval e he]
        by_cases hle : e + pre.length ≤ md
        · rw [if_pos hle, if_pos (by omega)]
        · rw [if_neg hle, if_neg (by omega)]

end

/-- The arrays have their sizes, and the vertices are sorted by degree with `bin` the starts. -/
structure Arrays.Valid (n md : ℕ) (s : Arrays) : Prop where
  deg_length : s.deg.length = n
  bin_length : s.bin.length = md + 2
  vert_length : s.vert.length = n
  pos_length : s.pos.length = n
  binned : Binned n md (s.deg.getD · 0) (s.bin.getD · 0) (s.vert.getD · 0) (s.pos.getD · 0)

theorem bucketSort_valid (deg : List ℕ) :
    ∃ s, bucketSort deg = some s ∧ s.deg = deg ∧ s.Valid deg.length (deg.foldl max 0) := by
  have hmd : ∀ d ∈ deg, d ≤ deg.foldl max 0 := fun d hd => le_foldl_max hd 0
  obtain ⟨bin, hcount, hlen, hval⟩ := countDegrees_eq hmd
  obtain ⟨⟨bin, start⟩, hstarts, hlen, hval⟩ := classStarts_eq hlen hval
  obtain ⟨s, hplaces, hdeg, hbin, hvert, hpos, hval, hrank⟩ := placeVertices_eq hmd hlen hval
  obtain ⟨bin', hrestore, hbin', hval⟩ := restoreStarts_eq hbin hval
  have hat : ∀ p < deg.length, ∃ v < deg.length, rank deg v = p ∧ s.vert.getD p 0 = v := by
    intro p hp
    obtain ⟨v, hv, rfl⟩ := exists_rank hp
    exact ⟨v, hv, rfl, (hrank v hv).2⟩
  refine ⟨{ s with bin := bin' }, ?_, hdeg, by rw [hdeg], hbin', hvert, hpos, ?_⟩
  · simp only [bucketSort, hcount, bind_eq_bind, bind_some, hstarts, hplaces, hrestore]
    rfl
  · refine ⟨?_, ?_, ?_, ?_, ?_, ?_⟩
    · intro v hv
      rw [hdeg, getD_eq_getElem _ _ hv]
      exact hmd _ (getElem_mem hv)
    · intro p hp
      obtain ⟨v, hv, -, hpv⟩ := hat p hp
      exact hpv ▸ hv
    · intro v hv
      rw [(hrank v hv).1]
      exact rank_lt_length hv
    · intro v hv
      rw [(hrank v hv).1, (hrank v hv).2]
    · intro p hp
      obtain ⟨v, hv, hvp, hpv⟩ := hat p hp
      rw [hpv, (hrank v hv).1, hvp]
    · intro d hd p hp
      obtain ⟨v, hv, rfl, hpv⟩ := hat p hp
      rw [hval d hd, hpv, hdeg]
      exact rank_lt_below_iff hv

section

variable {n md : ℕ} {s : Arrays} (h : s.Valid n md) {u v : ℕ} (hu : u < n) (hv : v < n)

include h hu hv

theorem lower_of_le (hle : s.deg.getD u 0 ≤ s.deg.getD v 0) : lower v s u = some s := by
  have hud : u < s.deg.length := h.deg_length.symm ▸ hu
  have hvd : v < s.deg.length := h.deg_length.symm ▸ hv
  simp only [lower, getElem?_eq_getD hud 0, getElem?_eq_getD hvd 0, bind_eq_bind,
    bind_some, if_neg (not_lt.mpr hle)]
  rfl

/-- A degree above that of the peeled vertex falls by one. The arrays stay sorted, and the places
before the class of that degree are not touched. -/
theorem lower_of_lt (hlt : s.deg.getD v 0 < s.deg.getD u 0) :
    ∃ s', lower v s u = some s' ∧ s'.Valid n md ∧
      (s'.deg.getD · 0) = update (s.deg.getD · 0) u (s.deg.getD u 0 - 1) ∧
      ∀ p < s.bin.getD (s.deg.getD u 0) 0, s'.vert.getD p 0 = s.vert.getD p 0 := by
  obtain ⟨du, hdu⟩ : ∃ du, s.deg.getD u 0 = du := ⟨_, rfl⟩
  obtain ⟨pu, hpu⟩ : ∃ pu, s.pos.getD u 0 = pu := ⟨_, rfl⟩
  obtain ⟨pw, hpw⟩ : ∃ pw, s.bin.getD du 0 = pw := ⟨_, rfl⟩
  obtain ⟨w, hw⟩ : ∃ w, s.vert.getD pw 0 = w := ⟨_, rfl⟩
  have hb := h.binned
  have hdm : du ≤ md := hdu ▸ hb.key_le u hu
  have hle : pw ≤ pu := by
    have := hb.start_le_place hu
    rwa [hdu, hpu, hpw] at this
  have hpun : pu < n := hpu ▸ hb.place_lt u hu
  have hwn : w < n := hw ▸ hb.item_lt pw (by omega)
  have hlower := hb.lower hu (by rw [hdu] at hlt ⊢; omega)
  simp only [hdu, hpw, hw, hpu] at hlower
  have hud : u < s.deg.length := h.deg_length.symm ▸ hu
  have hvd : v < s.deg.length := h.deg_length.symm ▸ hv
  have hup : u < s.pos.length := h.pos_length.symm ▸ hu
  have hwp : w < (s.pos.set u pw).length := by rw [length_set, h.pos_length]; exact hwn
  have hdb : du < s.bin.length := by rw [h.bin_length]; omega
  have hpv : pw < s.vert.length := by rw [h.vert_length]; omega
  have hpv' : pu < (s.vert.set pw u).length := by rw [length_set, h.vert_length]; exact hpun
  have hexchange : exchange s u pu w pw = some { s with
        vert := (s.vert.set pw u).set pu w
        pos := (s.pos.set u pw).set w pu } := by
    rw [exchange]
    split_ifs with huw
    · simp only [setChecked_eq hup, setChecked_eq hpv, setChecked_eq hwp,
        setChecked_eq hpv', bind_eq_bind, bind_some]
      rfl
    · -- `u` is the first of its class already: all four writes would change nothing
      have huw : u = w := not_not.mp huw
      have hpp : pu = pw := by rw [← hpu, huw, ← hw]; exact hb.place_item pw (by omega)
      have hvert : s.vert.set pw u = s.vert := by
        rw [huw, ← hw, getD_eq_getElem _ _ hpv, set_getElem_self]
      have hpos : s.pos.set u pw = s.pos := by
        rw [← hpp, ← hpu, getD_eq_getElem _ _ hup, set_getElem_self]
      rw [← huw, hpp, hvert, hpos, hvert, hpos]
      rfl
  refine ⟨⟨s.deg.set u (du - 1), s.bin.set du (pw + 1), (s.vert.set pw u).set pu w,
    (s.pos.set u pw).set w pu⟩, ?_, ?_, ?_, ?_⟩
  · rw [hdu] at hlt
    simp only [lower, getElem?_eq_getD hud 0, getElem?_eq_getD hvd 0, bind_eq_bind,
      bind_some, hdu, if_pos hlt, getElem?_eq_getD hup 0, hpu, getElem?_eq_getD hdb 0, hpw,
      getElem?_eq_getD hpv 0, hw, hexchange, setChecked_eq hdb, setChecked_eq hud]
    rfl
  · refine ⟨by simpa using h.deg_length, by simpa using h.bin_length,
      by simpa using h.vert_length, by simpa using h.pos_length, ?_⟩
    simp only [getD_set hud, getD_set hdb, getD_set hpv', getD_set hpv, getD_set hwp, getD_set hup]
    exact hlower
  · rw [hdu]
    exact getD_set hud _ _
  · intro p hp
    rw [hdu] at hp
    have hnow := congrFun (getD_set hpv' w 0) p
    rw [getD_set hpv, update_apply, update_apply] at hnow
    rw [hnow, if_neg (by omega), if_neg (by omega)]

end

end Neug.KCore
