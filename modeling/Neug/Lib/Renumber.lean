import Mathlib

/-! Renumbering: some positions of a table are kept and numbered anew in their order. -/
namespace Neug.Lib
open List Option

/-- The positions below `n` that are kept. -/
def kept (n : ℕ) (p : ℕ → Bool) : List ℕ := (List.range n).filter p

theorem mem_kept {n i : ℕ} {p : ℕ → Bool} : i ∈ kept n p ↔ i < n ∧ p i = true := by
  simp [kept]

theorem nodup_kept (n : ℕ) (p : ℕ → Bool) : (kept n p).Nodup := nodup_range.filter p

theorem getElem?_map_idxOf {α β : Type} [BEq α] [LawfulBEq α] {l : List α} {a : α} (h : a ∈ l)
    (f : α → β) : (l.map f)[l.idxOf a]? = some (f a) := by
  rw [getElem?_map, getElem?_eq_getElem (idxOf_lt_length_of_mem h), getElem_idxOf]
  rfl

theorem mapM_eq_some_map {α β : Type} {f : α → Option β} {g : α → β} {l : List α}
    (h : ∀ a ∈ l, f a = some (g a)) : l.mapM f = some (l.map g) := by
  induction l with
  | nil => rfl
  | cons a l ih =>
    rw [mapM_cons, h a mem_cons_self, ih fun b hb => h b (mem_cons_of_mem _ hb)]
    rfl

theorem mapM_eq_none {α β : Type} {f : α → Option β} {l : List α} {a : α} (ha : a ∈ l)
    (hf : f a = none) : l.mapM f = none := by
  induction l with
  | nil => cases ha
  | cons c l ih =>
    rw [mapM_cons]
    rcases mem_cons.mp ha with rfl | ha
    · rw [hf]
      rfl
    · rw [ih ha]
      cases f c <;> rfl

theorem mapM_eq_some_filterMap {α β : Type} {f : α → Option β} {l : List α}
    (h : ∀ a ∈ l, (f a).isSome = true) : l.mapM f = some (l.filterMap f) := by
  induction l with
  | nil => rfl
  | cons a l ih =>
    obtain ⟨b, hb⟩ := isSome_iff_exists.mp (h a (mem_cons_self ..))
    rw [mapM_cons, ih fun c hc => h c (mem_cons_of_mem _ hc), filterMap_cons_some hb, hb]
    rfl

theorem getElem?_filterMap {α β : Type} {f : α → Option β} {l : List α}
    (h : ∀ a ∈ l, (f a).isSome = true) (k : ℕ) : (l.filterMap f)[k]? = l[k]?.bind f := by
  induction l generalizing k with
  | nil => rfl
  | cons c l ih =>
    obtain ⟨b, hb⟩ := isSome_iff_exists.mp (h c (mem_cons_self ..))
    rw [filterMap_cons_some hb]
    cases k with
    | zero => simp [hb]
    | succ k => exact ih (fun c hc => h c (mem_cons_of_mem _ hc)) k

theorem getElem?_filterMap_idxOf {α β : Type} [BEq α] [LawfulBEq α] {f : α → Option β}
    {l : List α} {a : α} (h : ∀ a ∈ l, (f a).isSome = true) (ha : a ∈ l) :
    (l.filterMap f)[l.idxOf a]? = f a := by
  rw [getElem?_filterMap h, getElem?_eq_getElem (idxOf_lt_length_of_mem ha), getElem_idxOf]
  rfl

section

variable {α : Type} [DecidableEq α] {l : List α} {p : ℕ → Bool} {d : α}

theorem getD_eq_of_idxOf? {a : α} {i : ℕ} (h : l.idxOf? a = some i) : l.getD i d = a := by
  obtain ⟨hi, ha, -⟩ := idxOf?_eq_some_iff.mp h
  rw [getD_eq_getElem _ _ hi, ha]

theorem idxOf?_getD (hl : l.Nodup) {i : ℕ} (hi : i < l.length) :
    l.idxOf? (l.getD i d) = some i := by
  rw [getD_eq_getElem _ _ hi]
  refine idxOf?_eq_some_iff.mpr ⟨hi, rfl, fun j hj heq => ?_⟩
  exact absurd ((hl.getElem_inj_iff).mp heq) hj.ne

theorem nodup_map_kept (hl : l.Nodup) (p : ℕ → Bool) :
    ((kept l.length p).map fun i => l.getD i d).Nodup := by
  refine (nodup_kept _ _).map_on fun i hi j hj heq => ?_
  have hi' := idxOf?_getD (d := d) hl (mem_kept.mp hi).1
  rw [heq, idxOf?_getD hl (mem_kept.mp hj).1] at hi'
  exact (some.inj hi').symm

theorem idxOf?_map_kept (hl : l.Nodup) (p : ℕ → Bool) (a : α) :
    ((kept l.length p).map fun i => l.getD i d).idxOf? a =
      ((l.idxOf? a).filter p).map fun i => (kept l.length p).idxOf i := by
  have hnodup := nodup_map_kept (d := d) hl p
  cases ha : ((l.idxOf? a).filter p) with
  | none =>
    rw [map_none, idxOf?_eq_none_iff]
    intro hmem
    obtain ⟨i, hi, rfl⟩ := mem_map.mp hmem
    obtain ⟨hlt, hp⟩ := mem_kept.mp hi
    rw [idxOf?_getD hl hlt] at ha
    simp [hp] at ha
  | some i =>
    obtain ⟨hidx, hp⟩ := filter_eq_some_iff.mp ha
    obtain ⟨hlt, -, -⟩ := idxOf?_eq_some_iff.mp hidx
    have hmem : i ∈ kept l.length p := mem_kept.mpr ⟨hlt, hp⟩
    have hget := getElem?_map_idxOf hmem fun i => l.getD i d
    obtain ⟨hk, hval⟩ := List.getElem?_eq_some_iff.mp hget
    have hfound := idxOf?_getD (d := d) hnodup hk
    rw [getD_eq_getElem _ _ hk, hval, getD_eq_of_idxOf? hidx] at hfound
    exact hfound

end

section

variable {α κ β : Type} [DecidableEq κ] {key : α → κ} {value : α → β}

theorem foldl_update_of_notMem (l : List α) (m : κ → β) {k : κ} (hk : ∀ a ∈ l, key a ≠ k) :
    l.foldl (fun m a => Function.update m (key a) (value a)) m k = m k := by
  induction l generalizing m with
  | nil => rfl
  | cons a l ih =>
    rw [foldl_cons, ih _ fun b hb => hk b (mem_cons_of_mem _ hb)]
    exact Function.update_of_ne (Ne.symm (hk a (mem_cons_self ..))) _ _

theorem foldl_update_of_mem {l : List α} (m : κ → β) {a : α} (ha : a ∈ l)
    (hinj : ∀ b ∈ l, key b = key a → b = a) :
    l.foldl (fun m a => Function.update m (key a) (value a)) m (key a) = value a := by
  induction l generalizing m with
  | nil => cases ha
  | cons b l ih =>
    rw [foldl_cons]
    by_cases hal : a ∈ l
    · exact ih _ hal fun c hc => hinj c (mem_cons_of_mem _ hc)
    · obtain rfl : a = b := (mem_cons.mp ha).resolve_right hal
      rw [foldl_update_of_notMem]
      · exact Function.update_self ..
      · intro c hc heq
        exact hal (hinj c (mem_cons_of_mem _ hc) heq ▸ hc)

end

end Neug.Lib
