import Mathlib

/-! Loops that update a vector cell by cell: what one cell holds after a list of updates, and a
rule for loops whose accesses can be out of range. -/
namespace Neug.Lib
open List Option Function

variable {α β σ : Type}

theorem getElem?_foldl_modify (f : β → α → α) (l : List (ℕ × β)) (out : List α) (c : ℕ) :
    (l.foldl (fun out e => out.modify e.1 (f e.2)) out)[c]? =
      out[c]?.map fun a => (l.filter (·.1 = c)).foldl (fun a e => f e.2 a) a := by
  induction l generalizing out with
  | nil => simp
  | cons e l ih =>
    rw [foldl_cons, ih, getElem?_modify]
    by_cases h : e.1 = c
    · cases out[c]? <;> simp [h]
    · simp [h]

theorem length_foldl_modify (f : β → α → α) (l : List (ℕ × β)) (out : List α) :
    (l.foldl (fun out e => out.modify e.1 (f e.2)) out).length = out.length := by
  induction l generalizing out with
  | nil => rfl
  | cons e l ih => rw [foldl_cons, ih, length_modify]

theorem length_foldl_set (l : List (ℕ × α)) (out : List α) :
    (l.foldl (fun out e => out.set e.1 e.2) out).length = out.length := by
  induction l generalizing out with
  | nil => rfl
  | cons e l ih => rw [foldl_cons, ih, length_set]

variable {i : ℕ} {l : List α}

theorem getElem?_foldl_set_of_notMem {l : List (ℕ × α)} (h : ∀ e ∈ l, e.1 ≠ i)
    (out : List α) : (l.foldl (fun out e => out.set e.1 e.2) out)[i]? = out[i]? := by
  induction l generalizing out with
  | nil => rfl
  | cons e l ih =>
    rw [foldl_cons, ih fun e he => h e (mem_cons_of_mem _ he), getElem?_set_ne (h e mem_cons_self)]

theorem getElem?_foldl_set {l : List (ℕ × α)} {v : α} (hmem : ∃ e ∈ l, e.1 = i)
    (hval : ∀ e ∈ l, e.1 = i → e.2 = v) (out : List α) (hi : i < out.length) :
    (l.foldl (fun out e => out.set e.1 e.2) out)[i]? = some v := by
  induction l generalizing out with
  | nil => simp at hmem
  | cons e l ih =>
    rw [foldl_cons]
    by_cases hl : ∃ e ∈ l, e.1 = i
    · exact ih hl (fun e he => hval e (mem_cons_of_mem _ he)) _ (by simpa using hi)
    · have hkeep : ∀ e ∈ l, e.1 ≠ i := fun e he h => hl ⟨e, he, h⟩
      obtain ⟨e', he', rfl⟩ := hmem
      rcases mem_cons.mp he' with rfl | he'
      · rw [getElem?_foldl_set_of_notMem hkeep, getElem?_set_self hi, hval e' mem_cons_self rfl]
      · exact absurd rfl (hkeep e' he')

theorem le_foldl_max {l : List ℕ} {c : ℕ} (h : c ∈ l) (a : ℕ) : c ≤ l.foldl max a := by
  have hacc : ∀ (l : List ℕ) a, a ≤ l.foldl max a := by
    intro l
    induction l with
    | nil => intro a; exact le_rfl
    | cons b l ih => intro a; exact (le_max_left a b).trans (ih _)
  induction l generalizing a with
  | nil => cases h
  | cons b l ih =>
    rcases mem_cons.mp h with rfl | h
    · exact (le_max_right a c).trans (hacc l _)
    · exact ih h _

/-- `l[i] = x` where the access is checked. -/
def setChecked (l : List α) (i : ℕ) (x : α) : Option (List α) :=
  if i < l.length then some (l.set i x) else none

theorem setChecked_eq (h : i < l.length) (x : α) : setChecked l i x = some (l.set i x) :=
  if_pos h

theorem getElem?_eq_getD (h : i < l.length) (d : α) : l[i]? = some (l.getD i d) := by
  rw [getElem?_eq_getElem h, getD_eq_getElem _ _ h]

theorem getD_set (h : i < l.length) (x d : α) :
    (fun j => (l.set i x).getD j d) = update (fun j => l.getD j d) i x := by
  funext j
  rw [update_apply, getD_eq_getElem?_getD, getElem?_set, getD_eq_getElem?_getD]
  by_cases hji : j = i
  · simp [hji, h]
  · rw [if_neg hji, if_neg (Ne.symm hji)]

/-- In the loop `for i < n` the round behind `pre` is the one for `pre.length`. -/
theorem eq_length_of_range {n : ℕ} {pre post : List ℕ} (h : range n = pre ++ i :: post) :
    i = pre.length ∧ i < n := by
  have hget : (range n)[pre.length]? = some i := by rw [h]; simp
  obtain ⟨hlt, heq⟩ := List.getElem?_eq_some_iff.mp hget
  rw [length_range] at hlt
  rw [getElem_range] at heq
  exact ⟨heq.symm, heq ▸ hlt⟩

/-- A loop all of whose rounds succeed and keep the invariant, stated with the part of the list
that is behind, succeeds and ends with it. -/
theorem foldlM_invariant {f : σ → α → Option σ} (I : List α → σ → Prop) {s : σ} (hinit : I [] s)
    (hstep : ∀ pre a post s, l = pre ++ a :: post → I pre s →
      ∃ s', f s a = some s' ∧ I (pre ++ [a]) s') : ∃ s', l.foldlM f s = some s' ∧ I l s' := by
  have hgen : ∀ post pre s, l = pre ++ post → I pre s →
      ∃ s', post.foldlM f s = some s' ∧ I l s' := by
    intro post
    induction post with
    | nil =>
      intro pre s hl hI
      rw [append_nil] at hl
      exact ⟨s, rfl, hl ▸ hI⟩
    | cons a post ih =>
      intro pre s hl hI
      obtain ⟨s', hs', hI'⟩ := hstep pre a post s hl hI
      obtain ⟨t, ht, hIt⟩ := ih (pre ++ [a]) s' (by simpa using hl) hI'
      exact ⟨t, by rw [foldlM_cons, hs']; exact ht, hIt⟩
  exact hgen l [] s rfl hinit

section

theorem set_map_range (f : ℕ → α) (n i : ℕ) (x : α) :
    ((range n).map f).set i x = (range n).map (update f i x) := by
  apply ext_getElem
  · simp
  · intro j hj hj'
    rw [getElem_set, getElem_map, getElem_map, getElem_range]
    by_cases hij : i = j
    · rw [if_pos hij, hij, update_self]
    · rw [if_neg hij, update_of_ne (Ne.symm hij)]

theorem getElem?_map_range (f : ℕ → α) {n i : ℕ} (hi : i < n) :
    ((range n).map f)[i]? = some (f i) := by
  rw [getElem?_map, getElem?_range hi, map_some]

/-- The entries of `l` for row `i`. -/
def rowOf (l : List (ℕ × α)) (i : ℕ) : List α := (l.filter (·.1 = i)).map Prod.snd

variable {l : List (ℕ × α)}

theorem mem_rowOf {i : ℕ} {a : α} : a ∈ rowOf l i ↔ (i, a) ∈ l := by
  simp only [rowOf, List.mem_map, mem_filter, decide_eq_true_eq]
  constructor
  · rintro ⟨e, ⟨he, rfl⟩, rfl⟩
    exact he
  · intro h
    exact ⟨_, ⟨h, rfl⟩, rfl⟩

theorem rowOf_append (l l' : List (ℕ × α)) (i : ℕ) :
    rowOf (l ++ l') i = rowOf l i ++ rowOf l' i := by
  rw [rowOf, filter_append, map_append]
  rfl

theorem rowOf_singleton_self (e : ℕ × α) : rowOf [e] e.1 = [e.2] := by simp [rowOf]

theorem rowOf_singleton_ne {e : ℕ × α} {i : ℕ} (h : i ≠ e.1) : rowOf [e] i = [] := by
  simp [rowOf, Ne.symm h]

theorem rowOf_perm {l' : List (ℕ × α)} (h : l.Perm l') (i : ℕ) : (rowOf l i).Perm (rowOf l' i) :=
  (h.filter _).map _

theorem foldl_modify_succ (n : ℕ) (l : List (ℕ × α)) :
    l.foldl (fun out e => out.modify e.1 (· + 1)) (replicate n 0) =
      (range n).map fun i => (rowOf l i).length := by
  have hcount : ∀ (l : List (ℕ × α)) a, l.foldl (fun a _ => a + 1) a = a + l.length := by
    intro l
    induction l with
    | nil => intro a; rfl
    | cons e l ih => intro a; rw [foldl_cons, ih, length_cons]; omega
  refine ext_getElem? fun i => ?_
  rw [getElem?_foldl_modify (fun (_ : α) a => a + 1)]
  by_cases hi : i < n
  · rw [getElem?_map_range _ hi, getElem?_replicate_of_lt hi, map_some, hcount,
      zero_add, rowOf, length_map]
  · rw [getElem?_eq_none (by simpa using hi), getElem?_eq_none (by simpa using hi)]
    rfl

/-- `rows[e.1].push_back(e.2)`. -/
def pushNext (rows : List (List α)) (e : ℕ × α) : Option (List (List α)) := do
  let row ← rows[e.1]?
  setChecked rows e.1 (row ++ [e.2])

theorem foldlM_pushNext {n : ℕ} (hl : ∀ e ∈ l, e.1 < n) :
    l.foldlM pushNext (replicate n []) = some ((range n).map (rowOf l)) := by
  have hstart : replicate n [] = (range n).map (rowOf ([] : List (ℕ × α))) := by
    have hnil : rowOf ([] : List (ℕ × α)) = fun _ => [] := rfl
    rw [hnil, map_const', length_range]
  obtain ⟨rows, hrun, rfl⟩ := foldlM_invariant (l := l) (f := pushNext)
    (fun pre rows => rows = (range n).map (rowOf pre)) hstart (by
      rintro pre e post rows heq rfl
      have he : e.1 < n := hl e (by rw [heq]; simp)
      refine ⟨_, ?_, rfl⟩
      rw [pushNext, getElem?_map_range _ he, bind_eq_bind, bind_some,
        setChecked_eq (by simpa using he), set_map_range]
      refine congrArg some (map_congr_left fun i _ => ?_)
      rw [rowOf_append, update_apply]
      split_ifs with hi
      · rw [hi, rowOf_singleton_self]
      · rw [rowOf_singleton_ne hi, append_nil])
  exact hrun

/-- Row `e.1` takes the entry `e.2` at its cursor, which moves on. -/
def placeNext (s : List ℕ × List (List α)) (e : ℕ × α) : Option (List ℕ × List (List α)) := do
  let place ← s.1[e.1]?
  let row ← s.2[e.1]?
  let row ← setChecked row place e.2
  pure (s.1.set e.1 (place + 1), s.2.set e.1 row)

/-- Rows with as many cells as there are entries for them are filled without a gap, in whatever
order the entries come. -/
theorem foldlM_placeNext {n : ℕ} {l' : List (ℕ × α)} (hl : ∀ e ∈ l, e.1 < n) (h : l'.Perm l)
    (d : α) : ∃ cursors, l'.foldlM placeNext
        (replicate n 0, (range n).map fun i => replicate (rowOf l i).length d) =
      some (cursors, (range n).map (rowOf l')) := by
  have hroom : ∀ i, (rowOf l i).length = (rowOf l' i).length := fun i =>
    (rowOf_perm h i).length_eq.symm
  have hstart : replicate n 0 = (range n).map fun i => (rowOf ([] : List (ℕ × α)) i).length := by
    have hnil : (fun i => (rowOf ([] : List (ℕ × α)) i).length) = fun _ => 0 := rfl
    rw [hnil, map_const', length_range]
  simp only [hroom]
  obtain ⟨s, hrun, hcursors, hrows⟩ := foldlM_invariant (l := l') (f := placeNext)
    (s := (replicate n 0, (range n).map fun i => replicate (rowOf l' i).length d))
    (fun pre s => s.1 = (range n).map (fun i => (rowOf pre i).length) ∧
      s.2 = (range n).map fun i =>
        rowOf pre i ++ replicate ((rowOf l' i).length - (rowOf pre i).length) d)
    ⟨hstart, by simp [rowOf]⟩ (by
      rintro pre e post ⟨cursors, rows⟩ heq ⟨hc, hr⟩
      obtain rfl : cursors = _ := hc
      obtain rfl : rows = _ := hr
      have he : e.1 < n := hl e (h.mem_iff.mp (by rw [heq]; simp))
      have hlong : (rowOf l' e.1).length - (rowOf pre e.1).length =
          (rowOf post e.1).length + 1 := by
        rw [heq, rowOf_append, length_append, ← singleton_append, rowOf_append,
          rowOf_singleton_self, length_append, length_singleton]
        omega
      refine ⟨((range n).map fun i => (rowOf (pre ++ [e]) i).length,
        (range n).map fun i => rowOf (pre ++ [e]) i ++
          replicate ((rowOf l' i).length - (rowOf (pre ++ [e]) i).length) d), ?_, rfl, rfl⟩
      rw [placeNext]
      simp only [getElem?_map_range _ he, bind_eq_bind, bind_some]
      rw [setChecked_eq (by rw [hlong]; simp), bind_some, set_map_range, set_map_range]
      have hone : ∀ i, i ≠ e.1 → rowOf (pre ++ [e]) i = rowOf pre i := fun i hi => by
        rw [rowOf_append, rowOf_singleton_ne hi, append_nil]
      have hself : rowOf (pre ++ [e]) e.1 = rowOf pre e.1 ++ [e.2] := by
        rw [rowOf_append, rowOf_singleton_self]
      refine congrArg some (Prod.ext (map_congr_left fun i _ => ?_) (map_congr_left fun i _ => ?_))
      · rw [update_apply]
        split_ifs with hi
        · rw [hi, hself, length_append, length_singleton]
        · rw [hone i hi]
      · rw [update_apply]
        split_ifs with hi
        · have hrest : (rowOf l' e.1).length - (rowOf pre e.1 ++ [e.2]).length =
              (rowOf post e.1).length := by
            rw [length_append, length_singleton]
            omega
          rw [hi, hself, hlong, hrest, set_append_right _ _ le_rfl, Nat.sub_self,
            replicate_succ, set_cons_zero, append_assoc, singleton_append]
        · rw [hone i hi])
  refine ⟨s.1, hrun.trans (congrArg some (Prod.ext rfl ?_))⟩
  rw [hrows]
  exact map_congr_left fun i _ => by simp

theorem getElem?_flatMap_range (f : ℕ → List α) {n a j : ℕ} (ha : a < n) (hj : j < (f a).length) :
    ((range n).flatMap f)[((range a).map fun b => (f b).length).sum + j]? = (f a)[j]? := by
  obtain ⟨m, rfl⟩ : ∃ m, n = a + (m + 1) := ⟨n - a - 1, by omega⟩
  have hlen : ((range a).flatMap f).length = ((range a).map fun b => (f b).length).sum :=
    length_flatMap
  rw [range_add, flatMap_append, range_succ_eq_map, map_cons, add_zero,
    flatMap_cons, ← hlen, getElem?_append_right (by omega), Nat.add_sub_cancel_left,
    getElem?_append_left hj]

end

end Neug.Lib
