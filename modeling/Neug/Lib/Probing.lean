import Mathlib

/-! Open addressing with linear probing: a table of slots, where an item sits at the first slot
from its home on that was empty when it came. -/
namespace Neug.Lib.Probing
open List Option Finset

variable {ι : Type}

/-- The slot `d` steps behind `home` in a table of `m` slots. -/
def seat (m home d : ℕ) : ℕ := (home + d) % m

theorem seat_succ (m home d : ℕ) : seat m ((home + 1) % m) d = seat m home (d + 1) := by
  unfold seat
  rw [Nat.mod_add_mod, add_assoc, add_comm 1 d]

theorem seat_lt {m : ℕ} (home d : ℕ) (hm : 0 < m) : seat m home d < m := Nat.mod_lt _ hm

theorem seat_inj {m home c d : ℕ} (hc : c < m) (hd : d < m)
    (h : seat m home c = seat m home d) : c = d := by
  have hmod : c % m = d % m := Nat.ModEq.add_left_cancel' home h
  rwa [Nat.mod_eq_of_lt hc, Nat.mod_eq_of_lt hd] at hmod

theorem exists_seat {m s : ℕ} (home : ℕ) (hs : s < m) : ∃ d < m, seat m home d = s := by
  refine ⟨(s + (m - home % m)) % m, Nat.mod_lt _ (by omega), ?_⟩
  have hle : home % m ≤ m := (Nat.mod_lt _ (by omega)).le
  unfold seat
  rw [Nat.add_mod_mod, ← Nat.mod_add_mod, show home % m + (s + (m - home % m)) = s + m by omega,
    Nat.add_mod_right, Nat.mod_eq_of_lt hs]

/-- Walk from slot `i` on until the test succeeds. There is no result if a slot is missing, if
the test has none, or if the walk does not end within `fuel` slots. -/
def walk (slots : List ι) (m : ℕ) (stop : ι → Option Bool) : ℕ → ℕ → Option ℕ
  | 0, _ => none
  | fuel + 1, i =>
    (slots[i]?).bind fun v => (stop v).bind fun b =>
      if b then some i else walk slots m stop fuel ((i + 1) % m)

theorem walk_eq {slots : List ι} {m home d fuel : ℕ} {stop : ι → Option Bool} (hhome : home < m)
    (hbefore : ∀ c < d, ∃ v, slots[seat m home c]? = some v ∧ stop v = some false)
    (hend : ∃ v, slots[seat m home d]? = some v ∧ stop v = some true) (hd : d < fuel) :
    walk slots m stop fuel home = some (seat m home d) := by
  induction d generalizing home fuel with
  | zero =>
    obtain ⟨k, rfl⟩ : ∃ k, fuel = k + 1 := ⟨fuel - 1, by omega⟩
    obtain ⟨v, hv, hstop⟩ := hend
    have hseat : seat m home 0 = home := Nat.mod_eq_of_lt hhome
    rw [hseat] at hv ⊢
    rw [walk, hv, bind_some, hstop, bind_some, if_pos rfl]
  | succ d ih =>
    obtain ⟨k, rfl⟩ : ∃ k, fuel = k + 1 := ⟨fuel - 1, by omega⟩
    obtain ⟨v, hv, hstop⟩ := hbefore 0 (Nat.succ_pos d)
    have hseat : seat m home 0 = home := Nat.mod_eq_of_lt hhome
    rw [hseat] at hv
    rw [walk, hv, bind_some, hstop, ← seat_succ]
    apply ih (Nat.mod_lt _ (by omega))
    · intro c hc
      rw [seat_succ]
      exact hbefore (c + 1) (by omega)
    · rwa [seat_succ]
    · omega

/-- The items are in the table, each once, and no slot between the home of an item and its seat
is empty. -/
structure Seated (e : ι) (home : ι → ℕ) (items : Finset ι) (slots : List ι) : Prop where
  not_empty : e ∉ items
  only : ∀ (s : ℕ) v, slots[s]? = some v → v = e ∨ v ∈ items
  unique : ∀ (s s' : ℕ) v, v ∈ items → slots[s]? = some v → slots[s']? = some v → s = s'
  seated : ∀ v ∈ items, ∃ d < slots.length, slots[seat slots.length (home v) d]? = some v ∧
    ∀ c < d, slots[seat slots.length (home v) c]? ≠ some e

variable {e : ι} {home : ι → ℕ} {items : Finset ι} {slots : List ι}

theorem seated_replicate (e : ι) (home : ι → ℕ) (m : ℕ) : Seated e home ∅ (List.replicate m e) where
  not_empty := notMem_empty e
  only _ _ hv := .inl (eq_of_mem_replicate (mem_of_getElem? hv))
  unique _ _ v hv := absurd hv (notMem_empty v)
  seated v hv := absurd hv (notMem_empty v)

section

variable (h : Seated e home items slots)
include h

theorem Seated.congr {home' : ι → ℕ}
    (hhome : ∀ v ∈ items, home' v = home v) : Seated e home' items slots where
  not_empty := h.not_empty
  only := h.only
  unique := h.unique
  seated v hv := by
    rw [hhome v hv]
    exact h.seated v hv

theorem Seated.item_of_ne {m : ℕ} (start : ℕ) {d : ℕ}
    (hm : m = slots.length) (hpos : 0 < m) (hne : slots[seat m start d]? ≠ some e) :
    ∃ v ∈ items, slots[seat m start d]? = some v := by
  have hlt : seat m start d < slots.length := hm ▸ seat_lt start d hpos
  have hv := getElem?_eq_getElem hlt
  rcases h.only _ _ hv with heq | hmem
  · rw [hv, heq] at hne
    exact absurd rfl hne
  · exact ⟨_, hmem, hv⟩

theorem Seated.exists_empty (hcard : items.card < slots.length) :
    ∃ s < slots.length, slots[s]? = some e := by
  classical
  by_contra! hnone
  have hitem : ∀ s (hs : s < slots.length), slots[s] ∈ items := by
    intro s hs
    have hv := getElem?_eq_getElem hs
    rcases h.only s _ hv with heq | hmem
    · rw [heq] at hv
      exact absurd hv (hnone s hs)
    · exact hmem
  have hinj : slots.Nodup := by
    rw [nodup_iff_injective_get]
    intro a b hab
    apply Fin.ext
    exact h.unique a b _ (hitem a a.isLt) (getElem?_eq_getElem a.isLt)
      (by rw [getElem?_eq_getElem b.isLt]; exact congrArg some hab.symm)
  have hsub : slots.toFinset ⊆ items := by
    intro v hv
    obtain ⟨s, hs, rfl⟩ := getElem_of_mem (mem_toFinset.mp hv)
    exact hitem s hs
  have hle := card_le_card hsub
  rw [toFinset_card_of_nodup hinj] at hle
  omega

theorem Seated.first_empty (hcard : items.card < slots.length) (start : ℕ) :
    ∃ d < slots.length, slots[seat slots.length start d]? = some e ∧
      ∀ c < d, ∃ v ∈ items, slots[seat slots.length start c]? = some v := by
  classical
  obtain ⟨s, hs, hempty⟩ := h.exists_empty hcard
  obtain ⟨d, hd, hseat⟩ := exists_seat start hs
  have hex : ∃ d, slots[seat slots.length start d]? = some e := ⟨d, by rw [hseat, hempty]⟩
  have hle : Nat.find hex ≤ d := Nat.find_min' hex (by rw [hseat, hempty])
  refine ⟨Nat.find hex, by omega, Nat.find_spec hex, ?_⟩
  intro c hc
  exact h.item_of_ne start rfl (by omega) (Nat.find_min hex hc)

theorem Seated.first_seat {v : ι} (hv : v ∈ items) :
    ∃ d < slots.length, slots[seat slots.length (home v) d]? = some v ∧
      ∀ c < d, ∃ w ∈ items, w ≠ v ∧ slots[seat slots.length (home v) c]? = some w := by
  obtain ⟨d, hd, hseat, hbefore⟩ := h.seated v hv
  refine ⟨d, hd, hseat, ?_⟩
  intro c hc
  obtain ⟨w, hw, hslot⟩ := h.item_of_ne (home v) rfl (by omega) (hbefore c hc)
  refine ⟨w, hw, ?_, hslot⟩
  rintro rfl
  have heq := seat_inj (by omega) hd (h.unique _ _ w hv hslot hseat)
  omega

end

theorem Seated.insert [DecidableEq ι] (h : Seated e home items slots) {v : ι} {d : ℕ}
    (hne : v ≠ e) (hnew : v ∉ items) (hd : d < slots.length)
    (hempty : slots[seat slots.length (home v) d]? = some e)
    (hfull : ∀ c < d, ∃ w ∈ items, slots[seat slots.length (home v) c]? = some w) :
    Seated e home (insert v items) (slots.set (seat slots.length (home v) d) v) := by
  have hlt : seat slots.length (home v) d < slots.length := seat_lt _ d (by omega)
  have hold : ∀ (s : ℕ) w, w ∈ items → slots[s]? = some w →
      (slots.set (seat slots.length (home v) d) v)[s]? = some w := by
    intro s w hw hs
    rw [getElem?_set_ne, hs]
    rintro rfl
    rw [hempty, some_inj] at hs
    exact h.not_empty (hs ▸ hw)
  have hcases : ∀ (s : ℕ) w, (slots.set (seat slots.length (home v) d) v)[s]? = some w →
      (s = seat slots.length (home v) d ∧ w = v) ∨ slots[s]? = some w := by
    intro s w hs
    by_cases heq : seat slots.length (home v) d = s
    · rw [← heq, getElem?_set_self hlt, some_inj] at hs
      exact .inl ⟨heq.symm, hs.symm⟩
    · rw [getElem?_set_ne heq] at hs
      exact .inr hs
  have hnever : ∀ s : ℕ, slots[s]? ≠ some v := by
    intro s hs
    rcases h.only s v hs with heq | hmem
    · exact hne heq
    · exact hnew hmem
  constructor
  · rw [mem_insert, not_or]
    exact ⟨hne.symm, h.not_empty⟩
  · intro s w hs
    rcases hcases s w hs with ⟨-, rfl⟩ | hs
    · exact .inr (mem_insert_self _ _)
    · exact (h.only s w hs).imp_right mem_insert_of_mem
  · intro s s' w hw hs hs'
    rcases hcases s w hs with ⟨rfl, rfl⟩ | hs₁
    · rcases hcases s' w hs' with ⟨rfl, -⟩ | hs₂
      · rfl
      · exact absurd hs₂ (hnever s')
    · rcases hcases s' w hs' with ⟨rfl, rfl⟩ | hs₂
      · exact absurd hs₁ (hnever s)
      · rcases mem_insert.mp hw with rfl | hw
        · exact absurd hs₁ (hnever s)
        · exact h.unique s s' w hw hs₁ hs₂
  · intro w hw
    rw [length_set]
    rcases mem_insert.mp hw with rfl | hw
    · refine ⟨d, hd, getElem?_set_self hlt, ?_⟩
      intro c hc
      obtain ⟨w', hw', hslot⟩ := hfull c hc
      rw [hold _ w' hw' hslot, ne_eq, some_inj]
      exact fun heq => h.not_empty (heq ▸ hw')
    · obtain ⟨d', hd', hseat, hbefore⟩ := h.first_seat hw
      refine ⟨d', hd', hold _ w hw hseat, ?_⟩
      intro c hc
      obtain ⟨w', hw', -, hslot⟩ := hbefore c hc
      rw [hold _ w' hw' hslot, ne_eq, some_inj]
      exact fun heq => h.not_empty (heq ▸ hw')

end Neug.Lib.Probing
