import Neug.Storage.EdgeUpdate

/-! After an update: the edge is searched for again from either end, updated again and deleted. -/
namespace Neug.Storage
open Neug.Lib List Option MutableCsr

variable {V : Type}

section

variable {l : List (Nbr (EdgeData V))} {y : Nbr (EdgeData V)} {ts nbr k past : ℕ}

/-- An entry that stays visible and leads to the same vertex stays a candidate. -/
theorem candidates_set (y' : Nbr (EdgeData V)) (hy : l[k]? = some y)
    (hvis : y.timestamp ≤ ts ↔ y'.timestamp ≤ ts) (hnbr : y'.neighbor = y.neighbor) :
    candidates (l.set k y') ts nbr = candidates l ts nbr := by
  unfold candidates
  rw [offsets_eq_filter, offsets_eq_filter, length_set]
  apply filter_congr
  intro i _
  by_cases hi : i = k
  · subst hi
    have hlt := (List.getElem?_eq_some_iff.mp hy).1
    have hset : (l.set i y')[i]? = some y' := by simp [hlt]
    simp [hset, hy, Nbr.visible, hnbr, hvis]
  · rw [getElem?_set_ne (Ne.symm hi)]

variable [PropertyValue V] {ps : List (PropertyDef V)} {e : Probe V} {i : ℕ} {value : V}
  {type : DataTypeId}

theorem fitsAt_iff : fitsAt ps l past e i = true ↔
    ∃ x, l[i]? = some x ∧ nbrDataEq ps (probe l past i x) e = some true ∧
      x.timestamp = e.timestamp := by
  unfold fitsAt probeAt
  cases l[i]? with
  | none => simp
  | some x => simp [Probe.same, probe]

theorem fitsAt_value_iff (he : e.data = .value value) :
    fitsAt ps l past e i = true ↔ ∃ x w, l[i]? = some x ∧ x.data = .value w ∧
      PropertyValue.eq w value = true ∧ x.timestamp = e.timestamp := by
  rw [fitsAt_iff]
  refine exists_congr fun x => ?_
  constructor
  · rintro ⟨hx, heq, hts⟩
    unfold nbrDataEq probe at heq
    cases hd : x.data with
    | empty => simp [hd, he] at heq
    | row r => simp [hd, he] at heq
    | value w => exact ⟨w, hx, rfl, by simpa [hd, he] using heq, hts⟩
  · rintro ⟨w, hx, hd, heq, hts⟩
    exact ⟨hx, by simp [nbrDataEq, probe, hd, he, heq], hts⟩

theorem fitsAt_row_iff {r : ℕ} (he : e.data = .row r) :
    fitsAt ps l past e i = true ↔ ∃ x, l[i]? = some x ∧ x.data = .row r ∧
      x.timestamp = e.timestamp := by
  rw [fitsAt_iff]
  refine exists_congr fun x => ?_
  constructor
  · rintro ⟨hx, heq, hts⟩
    unfold nbrDataEq probe at heq
    cases hd : x.data with
    | empty => simp [hd, he] at heq
    | value w => simp [hd, he] at heq
    | row q =>
      obtain rfl : q = r := by simpa [hd, he] using heq
      exact ⟨hx, rfl, hts⟩
  · rintro ⟨hx, hd, hts⟩
    exact ⟨hx, by simp [nbrDataEq, probe, hd, he], hts⟩

/-- A search for the entry at `k` after an update at `ts`: the entry is the only candidate, or
every value of the type equals itself and no earlier candidate with this timestamp equals a
different value. -/
def Recognisable (type : DataTypeId) (l : List (Nbr (EdgeData V))) (ts nbr k : ℕ) : Prop :=
  (candidates l ts nbr).length ≤ 1 ∨ ∀ value : V, PropertyValue.type value = type →
    PropertyValue.eq value value = true ∧ ∀ i ∈ candidates l ts nbr, i < k → ∀ x w,
      l[i]? = some x → x.timestamp = ts → x.data = .value w →
        PropertyValue.eq w value = true → w = value

def researched (ps : List (PropertyDef V)) (l : List (Nbr (EdgeData V))) (ts nbr k past : ℕ)
    (value : V) (e : Probe V) : Option ℕ :=
  pick (fitsAt ps (l.set k ⟨nbr, ts, .value value⟩) past e) (candidates l ts nbr)

/-- Where the entry is recognisable, the search stops at it or at an equal one before it. -/
theorem exists_researched (ps : List (PropertyDef V)) (past : ℕ)
    (hy : l[k]? = some y) (hnbr : y.neighbor = nbr) (hvis : y.timestamp ≤ ts)
    (h : Recognisable type l ts nbr k) (htype : PropertyValue.type value = type)
    (hdata : e.data = .value value) (hts : e.timestamp = ts) :
    ∃ i ≤ k, researched ps l ts nbr k past value e = some i ∧ ∃ x,
      (l.set k ⟨nbr, ts, .value value⟩)[i]? = some x ∧ x.data = .value value := by
  have hk : k ∈ candidates l ts nbr := mem_candidates.mpr ⟨y, hy, hvis, hnbr⟩
  have hlt := (List.getElem?_eq_some_iff.mp hy).1
  have hself : (l.set k ⟨nbr, ts, .value value⟩)[k]? = some ⟨nbr, ts, .value value⟩ := by
    simp [hlt]
  by_cases hone : (candidates l ts nbr).length ≤ 1
  · obtain ⟨i, hi⟩ := length_eq_one_iff.mp (le_antisymm hone (length_pos_of_mem hk))
    rw [hi, mem_singleton] at hk
    subst hk
    refine ⟨k, le_rfl, ?_, _, hself, rfl⟩
    rw [researched, hi]
    rfl
  · obtain ⟨hrefl, hfirst⟩ := h.resolve_left hone value htype
    have hfit : fitsAt ps (l.set k ⟨nbr, ts, .value value⟩) past e k = true :=
      (fitsAt_value_iff hdata).mpr ⟨_, value, hself, rfl, hrefl, hts.symm⟩
    obtain ⟨i, hi⟩ := isSome_iff_exists.mp (find?_isSome.mpr ⟨k, hk, hfit⟩)
    obtain ⟨himem, hifit, hibefore⟩ := (find?_eq_some_iff_of_sorted (pairwise_offsets _ l)).mp hi
    have hik : i ≤ k := by
      by_contra hlt'
      have := hibefore k hk (not_le.mp hlt')
      rw [hfit] at this
      cases this
    refine ⟨i, hik, by rw [researched, pick_of_two (not_le.mp hone), hi], ?_⟩
    rcases lt_or_eq_of_le hik with hlt' | rfl
    · obtain ⟨x, w, hx, hxd, heq, hxts⟩ := (fitsAt_value_iff hdata).mp hifit
      rw [getElem?_set_ne (by omega)] at hx
      have hw := hfirst i himem hlt' x w hx (hxts.trans hts) hxd heq
      exact ⟨x, by rw [getElem?_set_ne (by omega), hx], by rw [hxd, hw]⟩
    · exact ⟨_, hself, rfl⟩

theorem Ranked.set {D : Type} {l : List (Nbr D)} (h : Ranked l ts k) (hik : i ≤ k)
    (y : Nbr D) : Ranked (l.set k y) ts i := by
  intro x hx
  rw [take_set_of_le hik] at hx
  exact h x (take_subset_take_left l hik hx)

/-- What is found can be used like the entry that was written. -/
theorem exists_researched_ranked (ps : List (PropertyDef V)) (past : ℕ)
    (hy : l[k]? = some y) (hnbr : y.neighbor = nbr) (hvis : y.timestamp ≤ ts)
    (hrank : Ranked l ts k) (h : Recognisable type l ts nbr k)
    (htype : PropertyValue.type value = type) (hdata : e.data = .value value)
    (hts : e.timestamp = ts) : ∃ i x, researched ps l ts nbr k past value e = some i ∧
      (l.set k ⟨nbr, ts, .value value⟩)[i]? = some x ∧ x.data = .value value ∧
      x.neighbor = nbr ∧ x.timestamp ≤ ts ∧ Ranked (l.set k ⟨nbr, ts, .value value⟩) ts i := by
  obtain ⟨i, hik, hi, x, hx, hxd⟩ := exists_researched ps past hy hnbr hvis h htype hdata hts
  have hmem := pick_mem hi
  rw [← candidates_set ⟨nbr, ts, .value value⟩ hy (by simp [hvis]) hnbr.symm] at hmem
  obtain ⟨x', hx', hxvis, hxnbr⟩ := mem_candidates.mp hmem
  obtain rfl := some.inj (hx.symm.trans hx')
  exact ⟨i, x, hi, hx, hxd, hxnbr, hxvis, hrank.set hik _⟩

/-- Among several candidates, the one that is found equals the new value and is the first that
does. -/
theorem researched_eq_some (hmany : ¬ (candidates l ts nbr).length ≤ 1)
    (hdata : e.data = .value value) (hts : e.timestamp = ts)
    (h : researched ps l ts nbr k past value e = some i) {x : Nbr (EdgeData V)}
    (hx : (l.set k ⟨nbr, ts, .value value⟩)[i]? = some x) (hxd : x.data = .value value) :
    PropertyValue.eq value value = true ∧ x.timestamp = ts ∧ ∀ i' ∈ candidates l ts nbr,
      i' < i → i' ≠ k → ∀ x' w, l[i']? = some x' → x'.timestamp = ts → x'.data = .value w →
        PropertyValue.eq w value = false := by
  rw [researched, pick_of_two (not_le.mp hmany)] at h
  obtain ⟨himem, hifit, hibefore⟩ := (find?_eq_some_iff_of_sorted (pairwise_offsets _ l)).mp h
  obtain ⟨x', w, hx', hx'd, heq, hx'ts⟩ := (fitsAt_value_iff hdata).mp hifit
  obtain rfl : x = x' := some.inj (hx.symm.trans hx')
  obtain rfl : value = w := EdgeData.value.inj (hxd.symm.trans hx'd)
  refine ⟨heq, hx'ts.trans hts, fun i' hi' hlt hne z w hz hzts hzd => ?_⟩
  rw [← Bool.not_eq_true]
  intro hzeq
  have hno := hibefore i' hi' hlt
  rw [← Bool.not_eq_true] at hno
  exact hno ((fitsAt_value_iff hdata).mpr
    ⟨z, w, by rw [getElem?_set_ne (Ne.symm hne), hz], hzd, hzeq, hzts.trans hts.symm⟩)

theorem recognisable_of_researched [PartialEq V] (ps : List (PropertyDef V)) (past : ℕ)
    (probeOf : V → Probe V)
    (hdata : ∀ v, (probeOf v).data = .value v) (hts : ∀ v, (probeOf v).timestamp = ts)
    (htyped : ∀ x ∈ l, ∀ w, x.data = .value w → PropertyValue.type w = type)
    (h : ∀ value, PropertyValue.type value = type →
      ∃ i, researched ps l ts nbr k past value (probeOf value) = some i ∧ ∃ x,
        (l.set k ⟨nbr, ts, .value value⟩)[i]? = some x ∧ x.data = .value value) :
    Recognisable type l ts nbr k := by
  by_cases hone : (candidates l ts nbr).length ≤ 1
  · exact .inl hone
  refine .inr fun value htype => ?_
  obtain ⟨i, hi, x, hx, hxd⟩ := h value htype
  obtain ⟨hrefl, hxts, hfirst⟩ := researched_eq_some hone (hdata value) (hts value) hi hx hxd
  refine ⟨hrefl, fun i' hi' hlt z w hz hzts hzd heq => ?_⟩
  by_contra hne
  -- the entry found for `value` stands before `k` and has this value
  have hii : i ≤ i' := by
    by_contra hlt'
    rw [hfirst i' hi' (not_le.mp hlt') (by omega) z w hz hzts hzd] at heq
    cases heq
  rw [getElem?_set_ne (by omega)] at hx
  have himem : i ∈ candidates l ts nbr := pick_mem hi
  -- an update to `w` finds the same entry, since both values are equal to the same values
  obtain ⟨m, hm, u, hu, hud⟩ := h w (htyped z (mem_of_getElem? hz) w hzd)
  obtain ⟨-, huts, hmfirst⟩ := researched_eq_some hone (hdata w) (hts w) hm hu hud
  have hmi : m ≤ i := by
    by_contra hlt'
    have hno := hmfirst i himem (not_le.mp hlt') (by omega) x value hx hxts hxd
    rw [PartialEq.symm _ _ heq] at hno
    cases hno
  rw [getElem?_set_ne (by omega)] at hu
  rcases lt_or_eq_of_le hmi with hlt' | rfl
  · rw [hfirst m (pick_mem hm) hlt' (by omega) u w hu huts hud] at heq
    cases heq
  · rw [hu] at hx
    cases hx
    exact hne (EdgeData.value.inj (hud.symm.trans hxd))

theorem pick_row_iff (ps : List (PropertyDef V)) (past : ℕ) {r : ℕ} (hy : l[k]? = some y)
    (hnbr : y.neighbor = nbr) (hvis : y.timestamp ≤ ts) (hrow : y.data = .row r)
    (hown : ∀ (i : ℕ) x, l[i]? = some x → x.timestamp ≤ ts → x.data = .row r → i = k)
    (he : e.data = .row r) :
    (∃ i x, pick (fitsAt ps l past e) (candidates l ts nbr) = some i ∧ l[i]? = some x ∧
      x.timestamp ≤ ts ∧ x.data = .row r) ↔
      (candidates l ts nbr).length ≤ 1 ∨ y.timestamp = e.timestamp := by
  have hk : k ∈ candidates l ts nbr := mem_candidates.mpr ⟨y, hy, hvis, hnbr⟩
  by_cases hone : (candidates l ts nbr).length ≤ 1
  · obtain ⟨i, hi⟩ := length_eq_one_iff.mp (le_antisymm hone (length_pos_of_mem hk))
    rw [hi, mem_singleton] at hk
    subst hk
    simp only [hone, true_or, iff_true]
    exact ⟨k, y, by rw [hi]; rfl, hy, hvis, hrow⟩
  · simp only [hone, false_or]
    rw [pick_of_two (not_le.mp hone)]
    constructor
    · rintro ⟨i, x, hi, hx, hxvis, hxrow⟩
      obtain rfl := hown i x hx hxvis hxrow
      obtain ⟨x', hx', -, hts⟩ := (fitsAt_row_iff he).mp (find?_some hi)
      rw [hy] at hx'
      cases hx'
      exact hts
    · intro hts
      have hfit : fitsAt ps l past e k = true := (fitsAt_row_iff he).mpr ⟨y, hy, hrow, hts⟩
      obtain ⟨i, hi⟩ := isSome_iff_exists.mp (find?_isSome.mpr ⟨k, hk, hfit⟩)
      obtain ⟨x, hx, hxrow, hxts⟩ := (fitsAt_row_iff he).mp (find?_some hi)
      exact ⟨i, x, hi, hx, by omega, hxrow⟩

end

namespace EdgeTable

variable {t t' : EdgeTable V} {past : Past} {ts src dst o j col : ℕ} {n m : Nbr (EdgeData V)}

theorem outList_updated (ha : t.Addresses ts src dst o j n m) (value : V) :
    (t.updated src dst o j value ts).outCsr.list src =
      (t.outCsr.list src).set o ⟨dst, ts, .value value⟩ :=
  (list_setNbr (lt_size_of_getElem? ha.out) _ _ _).trans (if_pos rfl)

theorem inList_updated (ha : t.Addresses ts src dst o j n m) (value : V) :
    (t.updated src dst o j value ts).inCsr.list dst =
      (t.inCsr.list dst).set j ⟨src, ts, .value value⟩ :=
  (list_setNbr (lt_size_of_getElem? ha.inn) _ _ _).trans (if_pos rfl)

theorem pick_of_getD {l : List (Nbr (EdgeData V))} {cs : List ℕ} {fits : ℕ → Bool} {k : ℕ}
    (hdegree : l.length ≤ int32Max) (hn : l[k]? = some n)
    (hk : some ((pick fits cs).getD int32Max) = some k) : pick fits cs = some k := by
  have hlt := (List.getElem?_eq_some_iff.mp hn).1
  cases hp : pick fits cs with
  | none =>
    rw [hp, getD_none, some.injEq] at hk
    omega
  | some k' => rwa [hp, getD_some] at hk

variable [PropertyValue V]

theorem searchInOffset_eq (past : Past) (hs : t.Sound ts) (hn : (t.outCsr.list src)[o]? = some n)
    (hnbr : n.neighbor = dst) (hdst : dst < t.inCsr.size) : t.searchInOffset past src o ts n =
      some ((pick (fitsAt t.properties (t.inCsr.list dst) (past.inn dst)
        (probe (t.outCsr.list src) (past.out src) o n))
          (candidates (t.inCsr.list dst) ts src)).getD int32Max) := by
  rw [searchInOffset, hnbr, if_neg (by omega), fuzzySearchOffset_eq (hs.inFits dst)]
  exact hs.outFits src n (mem_of_getElem? hn)

theorem searchOutOffset_eq (past : Past) (hs : t.Sound ts) (hm : (t.inCsr.list dst)[j]? = some m)
    (hnbr : m.neighbor = src) (hsrc : src < t.outCsr.size) : t.searchOutOffset past dst j ts m =
      some ((pick (fitsAt t.properties (t.outCsr.list src) (past.out src)
        (probe (t.inCsr.list dst) (past.inn dst) j m))
          (candidates (t.outCsr.list src) ts dst)).getD int32Max) := by
  rw [searchOutOffset, hnbr, if_neg (by omega), fuzzySearchOffset_eq (hs.outFits src)]
  exact hs.inFits dst m (mem_of_getElem? hm)

def Usable (t : EdgeTable V) (ts src dst o j col : ℕ) : Prop :=
  ∃ n m, t.Addresses ts src dst o j n m ∧ t.UpdatesEdge ts src dst o j col n m ∧
    ∃ t', deleteEdge src dst o j ts t = some (.ok (), t') ∧
      Killed ts t t' [(src, o)] [(dst, j)]

/-- From either end of the edge the other end is found, and the edge can be used again. -/
def Again (t : EdgeTable V) (past : Past) (ts src dst o j col : ℕ) : Prop :=
  (∃ n, (t.outCsr.list src)[o]? = some n ∧ ∃ j', t.searchInOffset past src o ts n = some j' ∧
    t.Usable ts src dst o j' col) ∧
  ∃ m, (t.inCsr.list dst)[j]? = some m ∧ ∃ o', t.searchOutOffset past dst j ts m = some o' ∧
    t.Usable ts src dst o' j col

/-- Every update of a property of an edge changes this edge and no other, and the edge can be
used again. -/
def UpdatesAgain (t : EdgeTable V) (past : Past) (ts src dst o j col : ℕ)
    (n m : Nbr (EdgeData V)) : Prop :=
  ∀ value, t.HasType col value → ∃ t', updateEdgeProperty src dst o j col value ts t =
    some (.ok (), t') ∧ Changes t t' ts src dst o j col value n m ∧
      t'.Again past ts src dst o j col

def Recognised (t : EdgeTable V) (ts src dst o j : ℕ) (m : Nbr (EdgeData V)) : Prop :=
  match t.properties, isBundled t.properties with
  | p :: _, true => Recognisable p.type (t.inCsr.list dst) ts src j ∧
      Recognisable p.type (t.outCsr.list src) ts dst o
  | _, _ => (candidates (t.inCsr.list dst) ts src).length ≤ 1 ∧
      (candidates (t.outCsr.list src) ts dst).length ≤ 1 ∨ m.timestamp = ts

theorem usable_of_ranked (hs : t.Sound ts) (ha : t.Addresses ts src dst o j n m)
    (hcol : col < t.properties.length) (hout : Ranked (t.outCsr.list src) ts o)
    (hin : isBundled t.properties = true → Ranked (t.inCsr.list dst) ts j) :
    t.Usable ts src dst o j col :=
  ⟨n, m, ha, updatesEdge_of_ranked hs ha hcol hout hin,
    deleteEdge_killed (List.getElem?_eq_some_iff.mp ha.out).1
      (List.getElem?_eq_some_iff.mp ha.inn).1 ts⟩

section

variable {p : PropertyDef V} {value : V}

theorem searchIn_updated (hs : t.Sound ts) (ha : t.Addresses ts src dst o j n m)
    (hp : t.properties = [p]) (hb : isBundled [p] = true)
    (htype : PropertyValue.type value = p.type) :
    (t.updated src dst o j value ts).searchInOffset past src o ts ⟨dst, ts, .value value⟩ =
      some ((researched t.properties (t.inCsr.list dst) ts src j (past.inn dst) value
        (probe ((t.updated src dst o j value ts).outCsr.list src) (past.out src) o
          ⟨dst, ts, .value value⟩)).getD int32Max) := by
  have hlt := (List.getElem?_eq_some_iff.mp ha.out).1
  have hsize : dst < (t.updated src dst o j value ts).inCsr.size :=
    (lt_size_of_getElem? ha.inn).trans_eq (size_setNbr _ _ _ _).symm
  have hn : ((t.updated src dst o j value ts).outCsr.list src)[o]? =
      some ⟨dst, ts, .value value⟩ := by
    rw [outList_updated ha, getElem?_set_self hlt]
  rw [searchInOffset_eq past (sound_updated hs ha hp hb htype) hn rfl hsize,
    inList_updated ha, candidates_set _ ha.inn (by simp [ha.inVisible]) ha.src.symm]
  rfl

section

variable (hs : t.Sound ts) (ha : t.Addresses ts src dst o j n m) (hp : t.properties = [p])
  (hb : isBundled [p] = true)
include hs ha hp hb

theorem searchOut_updated (htype : PropertyValue.type value = p.type) :
    (t.updated src dst o j value ts).searchOutOffset past dst j ts ⟨src, ts, .value value⟩ =
      some ((researched t.properties (t.outCsr.list src) ts dst o (past.out src) value
        (probe ((t.updated src dst o j value ts).inCsr.list dst) (past.inn dst) j
          ⟨src, ts, .value value⟩)).getD int32Max) := by
  have hlt := (List.getElem?_eq_some_iff.mp ha.inn).1
  have hsize : src < (t.updated src dst o j value ts).outCsr.size :=
    (lt_size_of_getElem? ha.out).trans_eq (size_setNbr _ _ _ _).symm
  have hm : ((t.updated src dst o j value ts).inCsr.list dst)[j]? =
      some ⟨src, ts, .value value⟩ := by
    rw [inList_updated ha, getElem?_set_self hlt]
  rw [searchOutOffset_eq past (sound_updated hs ha hp hb htype) hm rfl hsize,
    outList_updated ha, candidates_set _ ha.out (by simp [ha.outVisible]) ha.dst.symm]
  rfl

theorem again_updated
    (hout : Ranked (t.outCsr.list src) ts o) (hin : Ranked (t.inCsr.list dst) ts j)
    (hrin : Recognisable p.type (t.inCsr.list dst) ts src j)
    (hrout : Recognisable p.type (t.outCsr.list src) ts dst o)
    (htype : PropertyValue.type value = p.type) :
    (t.updated src dst o j value ts).Again past ts src dst o j 0 := by
  have hs' := sound_updated hs ha hp hb htype
  have hcol : 0 < (t.updated src dst o j value ts).properties.length := by
    simp [updated, hp]
  have hn := getElem?_set_self (a := ⟨dst, ts, .value value⟩)
    (List.getElem?_eq_some_iff.mp ha.out).1
  have hm := getElem?_set_self (a := ⟨src, ts, .value value⟩)
    (List.getElem?_eq_some_iff.mp ha.inn).1
  rw [← outList_updated ha] at hn
  rw [← inList_updated ha] at hm
  constructor
  · refine ⟨_, hn, ?_⟩
    obtain ⟨i, x, hfound, hx, hxd, hxnbr, hxvis, hrank⟩ :=
      exists_researched_ranked t.properties (past.inn dst) ha.inn ha.src ha.inVisible hin hrin
        htype (e := probe ((t.updated src dst o j value ts).outCsr.list src) (past.out src) o
          ⟨dst, ts, .value value⟩) rfl rfl
    rw [← inList_updated ha] at hx hrank
    refine ⟨i, by rw [searchIn_updated hs ha hp hb htype, hfound, getD_some], ?_⟩
    refine usable_of_ranked hs' ⟨hn, hx, rfl, hxnbr, le_rfl, hxvis, hxd⟩ hcol ?_ fun _ => hrank
    rw [outList_updated ha]
    exact hout.set le_rfl _
  · refine ⟨_, hm, ?_⟩
    obtain ⟨i, x, hfound, hx, hxd, hxnbr, hxvis, hrank⟩ :=
      exists_researched_ranked t.properties (past.out src) ha.out ha.dst ha.outVisible hout hrout
        htype (e := probe ((t.updated src dst o j value ts).inCsr.list dst) (past.inn dst) j
          ⟨src, ts, .value value⟩) rfl rfl
    rw [← outList_updated ha] at hx hrank
    refine ⟨i, by rw [searchOut_updated hs ha hp hb htype, hfound, getD_some], ?_⟩
    refine usable_of_ranked hs' ⟨hx, hm, hxnbr, rfl, hxvis, le_rfl, hxd.symm⟩ hcol hrank fun _ => ?_
    rw [inList_updated ha]
    exact hin.set le_rfl _

end

/-- If the ends find each other after every update, the edge is recognisable at both ends. -/
theorem recognisable_of_again [PartialEq V] (past : Past) (hs : t.Sound ts)
    (ha : t.Addresses ts src dst o j n m) (hp : t.properties = [p]) (hb : isBundled [p] = true)
    (h : ∀ value, PropertyValue.type value = p.type →
      (t.updated src dst o j value ts).Again past ts src dst o j 0) :
    Recognisable p.type (t.inCsr.list dst) ts src j ∧
      Recognisable p.type (t.outCsr.list src) ts dst o := by
  have hltn := (List.getElem?_eq_some_iff.mp ha.out).1
  have hltm := (List.getElem?_eq_some_iff.mp ha.inn).1
  constructor
  · refine recognisable_of_researched t.properties (past.inn dst)
      (fun value => probe ((t.updated src dst o j value ts).outCsr.list src)
        (past.out src) o ⟨dst, ts, .value value⟩) (fun _ => rfl) (fun _ => rfl)
      (hs.inTyped p hp dst) fun value htype => ?_
    obtain ⟨⟨n', hn', j', hj', husable⟩, -⟩ := h value htype
    rw [outList_updated ha, getElem?_set_self hltn] at hn'
    cases hn'
    rw [searchIn_updated hs ha hp hb htype] at hj'
    obtain ⟨n', m', ha', -⟩ := husable
    have hpick := pick_of_getD ((sound_updated hs ha hp hb htype).inDegree dst) ha'.inn hj'
    have hn' := ha'.out
    rw [outList_updated ha, getElem?_set_self hltn] at hn'
    cases hn'
    exact ⟨j', hpick, m', inList_updated ha value ▸ ha'.inn, ha'.data⟩
  · refine recognisable_of_researched t.properties (past.out src)
      (fun value => probe ((t.updated src dst o j value ts).inCsr.list dst)
        (past.inn dst) j ⟨src, ts, .value value⟩) (fun _ => rfl) (fun _ => rfl)
      (hs.outTyped p hp src) fun value htype => ?_
    obtain ⟨-, m', hm', o', ho', husable⟩ := h value htype
    rw [inList_updated ha, getElem?_set_self hltm] at hm'
    cases hm'
    rw [searchOut_updated hs ha hp hb htype] at ho'
    obtain ⟨n', m', ha', -⟩ := husable
    have hpick := pick_of_getD ((sound_updated hs ha hp hb htype).outDegree src) ha'.out ho'
    have hm' := ha'.inn
    rw [inList_updated ha, getElem?_set_self hltm] at hm'
    cases hm'
    exact ⟨o', hpick, n', outList_updated ha value ▸ ha'.out, ha'.data.symm⟩

end

variable {r : ℕ}

section

variable (past) (hs : t.Sound ts) (ha : t.Addresses ts src dst o j n m)
  (hb : isBundled t.properties = false) (hcol : col < t.properties.length)
  (hout : Ranked (t.outCsr.list src) ts o) (hr : n.data = .row r)
include past hs ha hb hcol hout hr

/-- In a table with rows the outgoing end finds the incoming one if there is only one entry to
choose from, or if the timestamps agree. -/
theorem finds_in_rows_iff :
    (∃ n', (t.outCsr.list src)[o]? = some n' ∧ ∃ j', t.searchInOffset past src o ts n' = some j' ∧
      t.Usable ts src dst o j' col) ↔
      (candidates (t.inCsr.list dst) ts src).length ≤ 1 ∨ m.timestamp = n.timestamp := by
  have hrow := ha.data.trans hr
  have hsearch := searchInOffset_eq past hs ha.out ha.dst (lt_size_of_getElem? ha.inn)
  have hown : ∀ (i : ℕ) (y : Nbr (EdgeData V)), (t.inCsr.list dst)[i]? = some y →
      y.timestamp ≤ ts → y.data = .row r → i = j := fun i y hy hvis hyrow =>
    (Prod.mk.inj (hs.inRows dst i dst j r y m hy ha.inn hvis ha.inVisible hyrow hrow)).2
  refine .trans ?_ (pick_row_iff (e := probe (t.outCsr.list src) (past.out src) o n)
    t.properties (past.inn dst) ha.inn ha.src ha.inVisible hrow hown hr)
  constructor
  · rintro ⟨n', hn', j', hj', husable⟩
    obtain rfl := some.inj (ha.out.symm.trans hn')
    obtain ⟨n', m', ha', -⟩ := husable
    have hpick := pick_of_getD (hs.inDegree dst) ha'.inn (hsearch.symm.trans hj')
    obtain rfl := some.inj (ha.out.symm.trans ha'.out)
    exact ⟨j', m', hpick, ha'.inn, ha'.inVisible, ha'.data.trans hr⟩
  · rintro ⟨i, y, hi, hy, hvis, hyrow⟩
    obtain ⟨y', hy', -, hynbr⟩ := mem_candidates.mp (pick_mem hi)
    obtain rfl := some.inj (hy.symm.trans hy')
    have haddr : t.Addresses ts src dst o i n y :=
      ⟨ha.out, hy, ha.dst, hynbr, ha.outVisible, hvis, hyrow.trans hr.symm⟩
    refine ⟨n, ha.out, i, by rw [hsearch, hi]; rfl, ?_⟩
    exact usable_of_ranked hs haddr hcol hout fun h => by rw [hb] at h; cases h

theorem finds_out_rows_iff :
    (∃ m', (t.inCsr.list dst)[j]? = some m' ∧ ∃ o', t.searchOutOffset past dst j ts m' = some o' ∧
      t.Usable ts src dst o' j col) ↔
      (candidates (t.outCsr.list src) ts dst).length ≤ 1 ∨ n.timestamp = m.timestamp := by
  have hrow := ha.data.trans hr
  have hown : ∀ (i : ℕ) (y : Nbr (EdgeData V)), (t.outCsr.list src)[i]? = some y →
      y.timestamp ≤ ts → y.data = .row r → i = o := fun i y hy hvis hyrow =>
    (Prod.mk.inj (hs.outRows src i src o r y n hy ha.out hvis ha.outVisible hyrow hr)).2
  have hsearch := searchOutOffset_eq past hs ha.inn ha.src (lt_size_of_getElem? ha.out)
  refine .trans ?_ (pick_row_iff (e := probe (t.inCsr.list dst) (past.inn dst) j m)
    t.properties (past.out src) ha.out ha.dst ha.outVisible hr hown hrow)
  constructor
  · rintro ⟨m', hm', o', ho', husable⟩
    obtain rfl := some.inj (ha.inn.symm.trans hm')
    obtain ⟨n', m', ha', -⟩ := husable
    have hpick := pick_of_getD (hs.outDegree src) ha'.out (hsearch.symm.trans ho')
    obtain rfl := some.inj (ha.inn.symm.trans ha'.inn)
    exact ⟨o', n', hpick, ha'.out, ha'.outVisible, ha'.data.symm.trans hrow⟩
  · rintro ⟨i, y, hi, hy, hvis, hyrow⟩
    obtain rfl := hown i y hy hvis hyrow
    refine ⟨m, ha.inn, i, by rw [hsearch, hi]; rfl, ?_⟩
    exact usable_of_ranked hs ha hcol hout fun h => by rw [hb] at h; cases h

/-- In a table with rows the ends find each other after an update if there is only one edge, or if
the incoming end has the timestamp already. -/
theorem again_updatedRow_iff {x : Column V} (hx : t.table.columns[col]? = some x) (value : V) :
    (t.updatedRow src o col r n x value ts).Again past ts src dst o j col ↔
      (candidates (t.inCsr.list dst) ts src).length ≤ 1 ∧
        (candidates (t.outCsr.list src) ts dst).length ≤ 1 ∨ m.timestamp = ts := by
  have hs' : (t.updatedRow src o col r n x value ts).Sound ts := sound_updatedRow hs ha hx
  have hlist : (t.updatedRow src o col r n x value ts).outCsr.list src =
      (t.outCsr.list src).set o { n with timestamp := ts } :=
    (list_setNbr (lt_size_of_getElem? ha.out) _ _ _).trans (if_pos rfl)
  have hn : ((t.updatedRow src o col r n x value ts).outCsr.list src)[o]? =
      some { n with timestamp := ts } := by
    rw [hlist, getElem?_set_self (List.getElem?_eq_some_iff.mp ha.out).1]
  have hcand : candidates ((t.updatedRow src o col r n x value ts).outCsr.list src) ts dst =
      candidates (t.outCsr.list src) ts dst := by
    rw [hlist]
    exact candidates_set _ ha.out (by simp [ha.outVisible]) rfl
  have hrank : Ranked ((t.updatedRow src o col r n x value ts).outCsr.list src) ts o := by
    rw [hlist]
    exact hout.set le_rfl _
  have ha' : (t.updatedRow src o col r n x value ts).Addresses ts src dst o j
      { n with timestamp := ts } m := ⟨hn, ha.inn, ha.dst, ha.src, le_rfl, ha.inVisible, ha.data⟩
  have hfirst := finds_in_rows_iff past hs' ha' hb hcol hrank hr
  have hsecond := finds_out_rows_iff past hs' ha' hb hcol hrank hr
  rw [hcand] at hsecond
  rw [Again, hfirst, hsecond, eq_comm]
  exact (and_or_right).symm

end

/-- Every update of an edge changes this edge and no other, and leaves it usable, exactly if the
walks over the visible entries end at the offsets and the ends are recognised. -/
theorem updatesAgain_iff [PartialEq V] (past : Past) (hs : t.Sound ts)
    (ha : t.Addresses ts src dst o j n m) (hcol : col < t.properties.length)
    (htwo : ∃ a b, t.HasType col a ∧ t.HasType col b ∧ a ≠ b) :
    t.UpdatesAgain past ts src dst o j col n m ↔ Ranked (t.outCsr.list src) ts o ∧
      (isBundled t.properties = true → Ranked (t.inCsr.list dst) ts j) ∧
      t.Recognised ts src dst o j m := by
  have hiff := updatesEdge_iff hs ha hcol htwo
  cases hb : isBundled t.properties with
  | true =>
    obtain ⟨rfl, p, hp, hb'⟩ := eq_singleton_of_bundled hb hcol
    have htype : ∀ value, t.HasType 0 value ↔ PropertyValue.type value = p.type := by
      simp [HasType, hp]
    have hrec : t.Recognised ts src dst o j m ↔ Recognisable p.type (t.inCsr.list dst) ts src j ∧
          Recognisable p.type (t.outCsr.list src) ts dst o := by
      simp [Recognised, hp, hb']
    rw [hrec]
    constructor
    · intro h
      obtain ⟨hout, hin⟩ := hiff.mp fun value hv => (h value hv).imp fun t' ht' => ⟨ht'.1, ht'.2.1⟩
      refine ⟨hout, fun _ => hin hb, recognisable_of_again past hs ha hp hb' fun value hv => ?_⟩
      obtain ⟨t', hrun, -, hagain⟩ := h value ((htype value).mpr hv)
      have hrun' : updateEdgeProperty src dst o j 0 value ts t = _ :=
        (update_bundled hs ha hp hb' hout (hin hb)).1
      obtain ⟨-, rfl⟩ := Prod.mk.inj (some.inj (hrun.symm.trans hrun'))
      exact hagain
    · rintro ⟨hout, hin, hrin, hrout⟩ value hv
      obtain ⟨hrun, hchange⟩ := update_bundled hs ha hp hb' hout (hin rfl)
      exact ⟨_, hrun, hchange, again_updated hs ha hp hb' hout (hin rfl) hrin hrout
        ((htype value).mp hv)⟩
  | false =>
    have hrec : t.Recognised ts src dst o j m ↔ (candidates (t.inCsr.list dst) ts src).length ≤ 1 ∧
          (candidates (t.outCsr.list src) ts dst).length ≤ 1 ∨ m.timestamp = ts := by
      unfold Recognised
      rw [hb]
      cases t.properties <;> rfl
    rw [hrec]
    constructor
    · intro h
      obtain ⟨hout, -⟩ := hiff.mp fun value hv => (h value hv).imp fun t' ht' => ⟨ht'.1, ht'.2.1⟩
      refine ⟨hout, Bool.noConfusion, ?_⟩
      obtain ⟨a, -, hta, -⟩ := htwo
      obtain ⟨t', hrun, -, hagain⟩ := h a hta
      obtain ⟨r, x, hr, hx, hrun', -⟩ := update_rows hs ha hb hcol hout
      obtain ⟨-, rfl⟩ := Prod.mk.inj (some.inj (hrun.symm.trans hrun'))
      exact (again_updatedRow_iff past hs ha hb hcol hout hr hx a).mp hagain
    · rintro ⟨hout, -, hfound⟩ value -
      obtain ⟨r, x, hr, hx, hrun, hchange⟩ := update_rows hs ha hb hcol hout
      exact ⟨_, hrun, hchange,
        (again_updatedRow_iff past hs ha hb hcol hout hr hx value).mpr hfound⟩

end EdgeTable

end Neug.Storage
