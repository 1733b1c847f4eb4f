import Mathlib

/-! Elements sorted into buckets by a key: the places a counting sort gives them, and a table of
bucket starts that stays right when one element moves to the bucket below. -/
namespace Neug.Lib.Buckets

section

variable {keys : List ℕ} {v w d e : ℕ}

/-- How many keys lie below `d`. -/
def below (keys : List ℕ) (d : ℕ) : ℕ :=
  keys.countP (· < d)

/-- The place of element `v` in a stable sort by key. -/
def rank (keys : List ℕ) (v : ℕ) : ℕ :=
  below keys (keys.getD v 0) + (keys.take v).count (keys.getD v 0)

theorem below_succ (keys : List ℕ) (d : ℕ) : below keys (d + 1) = below keys d + keys.count d := by
  induction keys with
  | nil => rfl
  | cons k keys ih =>
    simp only [below, List.countP_cons] at ih ⊢
    rw [ih]
    by_cases hlt : k < d
    · have : k ≠ d := by omega
      simp [hlt, this, show k < d + 1 by omega]
      omega
    · by_cases heq : k = d
      · simp [heq]
        omega
      · simp [hlt, heq, show ¬ k < d + 1 by omega]

theorem below_mono (keys : List ℕ) (h : d ≤ e) : below keys d ≤ below keys e :=
  List.countP_mono_left fun k _ hk => by
    have : k < d := by simpa using hk
    simpa using this.trans_le h

theorem rank_lt_below_succ (hv : v < keys.length) :
    rank keys v < below keys (keys.getD v 0 + 1) := by
  have htake : keys.take (v + 1) = keys.take v ++ [keys.getD v 0] := by
    rw [List.take_add_one, List.getElem?_eq_getElem hv, List.getD_eq_getElem _ _ hv]
    rfl
  have hcount := (List.take_sublist (v + 1) keys).count_le (keys.getD v 0)
  rw [htake, List.count_append, List.count_singleton_self] at hcount
  rw [rank, below_succ]
  omega

theorem rank_lt_below_iff (hv : v < keys.length) : rank keys v < below keys d ↔ keys.getD v 0 < d := by
  constructor
  · intro h
    by_contra hge
    have := below_mono keys (Nat.le_of_not_lt hge)
    rw [rank] at h
    omega
  · intro h
    exact (rank_lt_below_succ hv).trans_le (below_mono keys h)

theorem rank_lt_length (hv : v < keys.length) : rank keys v < keys.length :=
  (rank_lt_below_succ hv).trans_le List.countP_le_length

theorem rank_lt_rank (hvw : v < w) (hw : w < keys.length)
    (h : keys.getD v 0 = keys.getD w 0) : rank keys v < rank keys w := by
  have hv : v < keys.length := hvw.trans hw
  have htake : (keys.take (v + 1)).Sublist (keys.take w) :=
    (List.take_prefix_take_left (by omega)).sublist
  have hcount := htake.count_le (keys.getD v 0)
  rw [List.take_add_one, List.getElem?_eq_getElem hv, ← List.getD_eq_getElem _ 0 hv] at hcount
  rw [rank, rank, ← h]
  simp at hcount ⊢
  omega

theorem rank_inj (hv : v < keys.length) (hw : w < keys.length) (h : rank keys v = rank keys w) :
    v = w := by
  have hkey : keys.getD v 0 = keys.getD w 0 := by
    rcases lt_trichotomy (keys.getD v 0) (keys.getD w 0) with hlt | heq | hlt
    · have := (rank_lt_below_iff hv).mpr hlt
      rw [h, rank_lt_below_iff hw] at this
      omega
    · exact heq
    · have := (rank_lt_below_iff hw).mpr hlt
      rw [← h, rank_lt_below_iff hv] at this
      omega
  rcases lt_trichotomy v w with hlt | heq | hlt
  · have := rank_lt_rank hlt hw hkey
    omega
  · exact heq
  · have := rank_lt_rank hlt hv hkey.symm
    omega

theorem exists_rank {p : ℕ} (hp : p < keys.length) : ∃ v < keys.length, rank keys v = p := by
  have hmaps : Set.MapsTo (rank keys) (Finset.range keys.length) (Finset.range keys.length) := by
    intro v hv
    simpa using rank_lt_length (by simpa using hv)
  have hinj : Set.InjOn (rank keys) (Finset.range keys.length) := by
    intro v hv w hw h
    exact rank_inj (by simpa using hv) (by simpa using hw) h
  have hsurj := Finset.surjOn_of_injOn_of_card_le (rank keys) hmaps hinj le_rfl
  obtain ⟨v, hv, h⟩ := hsurj (by simpa using hp)
  exact ⟨v, by simpa using hv, h⟩

end

/-- `item` lists the elements below `n`, `place` is its inverse, and bucket `d ≤ top` begins at
`start d`: the places before it hold the smaller keys. -/
structure Binned (n top : ℕ) (key start item place : ℕ → ℕ) : Prop where
  key_le : ∀ v < n, key v ≤ top
  item_lt : ∀ p < n, item p < n
  place_lt : ∀ v < n, place v < n
  item_place : ∀ v < n, item (place v) = v
  place_item : ∀ p < n, place (item p) = p
  lt_start : ∀ d ≤ top, ∀ p < n, (p < start d ↔ key (item p) < d)

namespace Binned

open Function

variable {n top : ℕ} {key start item place : ℕ → ℕ} (h : Binned n top key start item place)

include h

theorem sorted {p q : ℕ} (hpq : p ≤ q) (hq : q < n) : key (item p) ≤ key (item q) := by
  have hp : p < n := hpq.trans_lt hq
  have htop := h.key_le _ (h.item_lt p hp)
  by_contra hlt
  have hqs := (h.lt_start _ htop q hq).mpr (Nat.lt_of_not_le hlt)
  have := (h.lt_start _ htop p hp).mp (hpq.trans_lt hqs)
  omega

theorem start_le_place {v : ℕ} (hv : v < n) : start (key v) ≤ place v := by
  by_contra hlt
  have := (h.lt_start _ (h.key_le v hv) _ (h.place_lt v hv)).mp (Nat.lt_of_not_le hlt)
  rw [h.item_place v hv] at this
  omega

theorem key_item_start {v : ℕ} (hv : v < n) : key (item (start (key v))) = key v := by
  have hle := h.start_le_place hv
  have hlt : start (key v) < n := hle.trans_lt (h.place_lt v hv)
  have hge : ¬ key (item (start (key v))) < key v := by
    rw [← h.lt_start _ (h.key_le v hv) _ hlt]
    omega
  have := h.sorted hle (h.place_lt v hv)
  rw [h.item_place v hv] at this
  omega

/-- Element `v` changes places with the first element of its bucket and then falls into the bucket
below, which ends there. -/
theorem lower {v : ℕ} (hv : v < n) (hpos : 0 < key v) :
    Binned n top (update key v (key v - 1)) (update start (key v) (start (key v) + 1))
      (update (update item (start (key v)) v) (place v) (item (start (key v))))
      (update (update place v (start (key v))) (item (start (key v))) (place v)) := by
  obtain ⟨a, ha⟩ : ∃ a, start (key v) = a := ⟨_, rfl⟩
  obtain ⟨b, hb⟩ : ∃ b, place v = b := ⟨_, rfl⟩
  obtain ⟨w, hw⟩ : ∃ w, item a = w := ⟨_, rfl⟩
  have hab : a ≤ b := ha ▸ hb ▸ h.start_le_place hv
  have hbn : b < n := hb ▸ h.place_lt v hv
  have hib : item b = v := hb ▸ h.item_place v hv
  have hkw : key w = key v := by rw [← hw, ← ha]; exact h.key_item_start hv
  have hpw : place w = a := by rw [← hw]; exact h.place_item a (by omega)
  have hwn : w < n := hw ▸ h.item_lt a (by omega)
  have hitem : ∀ p, update (update item a v) b w p =
      if p = b then w else if p = a then v else item p := by
    simp [update_apply]
  have hplace : ∀ x, update (update place v a) w b x =
      if x = w then b else if x = v then a else place x := by
    simp [update_apply]
  rw [ha, hb, hw]
  refine ⟨?_, ?_, ?_, ?_, ?_, ?_⟩
  · intro x hx
    have := h.key_le x hx
    have := h.key_le v hv
    rw [update_apply]
    split_ifs <;> omega
  · intro p hp
    rw [hitem]
    split_ifs
    · exact hwn
    · exact hv
    · exact h.item_lt p hp
  · intro x hx
    rw [hplace]
    split_ifs
    · exact hbn
    · omega
    · exact h.place_lt x hx
  · intro x hx
    rw [hplace]
    by_cases hxw : x = w
    · rw [if_pos hxw, hitem, if_pos rfl, hxw]
    · rw [if_neg hxw]
      by_cases hxv : x = v
      · rw [if_pos hxv, hitem]
        have hne : a ≠ b := fun heq => hxw (by rw [hxv, ← hib, ← heq, hw])
        rw [if_neg hne, if_pos rfl, hxv]
      · rw [if_neg hxv, hitem]
        have hnb : place x ≠ b := fun heq => hxv (by rw [← h.item_place x hx, heq, hib])
        have hna : place x ≠ a := fun heq => hxw (by rw [← h.item_place x hx, heq, hw])
        rw [if_neg hnb, if_neg hna, h.item_place x hx]
  · intro p hp
    rw [hitem]
    by_cases hpb : p = b
    · rw [if_pos hpb, hplace, if_pos rfl, hpb]
    · rw [if_neg hpb]
      by_cases hpa : p = a
      · rw [if_pos hpa, hplace]
        have hne : v ≠ w := fun heq => hpb (by rw [hpa, ← hpw, ← heq, hb])
        rw [if_neg hne, if_pos rfl, hpa]
      · rw [if_neg hpa, hplace]
        have hnw : item p ≠ w := fun heq => hpa (by rw [← h.place_item p hp, heq, hpw])
        have hnv : item p ≠ v := fun heq => hpb (by rw [← h.place_item p hp, heq, hb])
        rw [if_neg hnw, if_neg hnv, h.place_item p hp]
  · intro d hd p hp
    have hold := h.lt_start d hd p hp
    have hatb := h.lt_start d hd b hbn
    have hata := h.lt_start d hd a (by omega)
    rw [hib] at hatb
    rw [hw] at hata
    rw [hitem, update_apply start, update_apply key]
    by_cases hpa : p = a
    · -- the place that `v` takes over: its new key is one less, the bucket starts one later
      subst hpa
      by_cases hpb : p = b
      · have hwv : w = v := by rw [← hw, hpb, hib]
        split_ifs with hdk
        · subst hdk; omega
        · omega
      · rw [if_neg hpb, if_pos rfl, if_pos rfl]
        split_ifs with hdk
        · subst hdk; omega
        · omega
    · by_cases hpb : p = b
      · subst hpb
        have hwv : w ≠ v := fun heq => hpa (by rw [← hb, ← heq, hpw])
        rw [if_pos rfl, hkw]
        split_ifs with hdk
        · subst hdk; omega
        · exact hatb
      · have hnv : item p ≠ v := fun heq => hpb (by rw [← h.place_item p hp, heq, hb])
        split_ifs with hdk
        · subst hdk
          omega
        · exact hold

end Binned

end Neug.Lib.Buckets
