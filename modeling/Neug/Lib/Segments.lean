import Neug.Lib.Buffer

/-! Lists that stand one behind another in one buffer, with a pointer to each. Filtering in place
moves the entries that are kept down over those that are not; making room moves whole lists up,
the last one first. -/
namespace Neug.Lib
open List Option

variable {α : Type}

section

/-- The loop over `left` entries from `read` on: an entry that is kept goes where `put` writes it,
the others are counted. -/
def slide (keep : α → Bool) (put : ℕ → ℕ → α → List α → Option (List α)) :
    ℕ → ℕ → ℕ → ℕ → List α → Option (List α × ℕ × ℕ)
  | 0, _, write, removed, buf => some (buf, write, removed)
  | left + 1, read, write, removed, buf =>
    (buf[read]?).bind fun x =>
      if keep x then (put removed write x buf).bind
        (slide keep put left (read + 1) (write + 1) removed)
      else slide keep put left (read + 1) write (removed + 1) buf

/-- `put` moves an entry down over a gap. -/
def MovesDown (put : ℕ → ℕ → α → List α → Option (List α)) : Prop :=
  ∀ out gap x rest buf, put gap.length out.length x (out ++ gap ++ x :: rest) = some buf →
    ∃ gap', gap'.length = gap.length ∧ buf = out ++ [x] ++ gap' ++ rest

theorem movesDown_set : MovesDown fun _ write (x : α) buf => some (buf.set write x) := by
  intro out gap x rest buf h
  cases h
  cases gap with
  | nil => exact ⟨[], rfl, by simp⟩
  | cons y gap => exact ⟨gap ++ [x], by simp, by simp⟩

variable {keep : α → Bool} {put : ℕ → ℕ → α → List α → Option (List α)}

/-- What the loop leaves: the kept entries behind `out`, and a gap of the length of all entries
that were dropped. -/
theorem slide_spec (hput : MovesDown put) {out gap todo rest : List α} {result : List α × ℕ × ℕ}
    (h : slide keep put todo.length (out.length + gap.length) out.length gap.length
      (out ++ gap ++ todo ++ rest) = some result) :
    ∃ gap', gap'.length = gap.length + (todo.filter fun x => !keep x).length ∧
      result = (out ++ todo.filter keep ++ gap' ++ rest, out.length + (todo.filter keep).length,
        gap'.length) := by
  induction todo generalizing out gap with
  | nil =>
    cases h
    exact ⟨gap, by simp, by simp⟩
  | cons x todo ih =>
    have hx : (out ++ gap ++ x :: todo ++ rest)[out.length + gap.length]? = some x := by
      simp
    rw [length_cons, slide, hx, bind_some] at h
    by_cases hkeep : keep x
    · rw [if_pos hkeep] at h
      obtain ⟨buf, hbuf, h⟩ := bind_eq_some_iff.mp h
      obtain ⟨gap₁, hgap₁, rfl⟩ := hput out gap x (todo ++ rest) buf (by simpa using hbuf)
      have hpos : out.length + gap.length + 1 = (out ++ [x]).length + gap₁.length := by
        simp only [length_append, length_singleton]
        omega
      have hnext : slide keep put todo.length ((out ++ [x]).length + gap₁.length)
          (out ++ [x]).length gap₁.length (out ++ [x] ++ gap₁ ++ todo ++ rest) = some result := by
        rw [← hpos, hgap₁]
        simpa using h
      obtain ⟨gap', hlen, rfl⟩ := ih hnext
      refine ⟨gap', by simpa [hkeep, hgap₁] using hlen, ?_⟩
      rw [filter_cons_of_pos hkeep]
      simp [add_assoc, add_comm 1]
    · rw [if_neg hkeep] at h
      have hnext : slide keep put todo.length (out.length + (gap ++ [x]).length) out.length
          (gap ++ [x]).length (out ++ (gap ++ [x]) ++ todo ++ rest) = some result := by
        simpa [add_assoc] using h
      obtain ⟨gap', hlen, rfl⟩ := ih hnext
      refine ⟨gap', ?_, by simp [hkeep]⟩
      simp only [length_append, length_singleton] at hlen
      simp only [hkeep, filter_cons, Bool.not_false, if_true, length_cons]
      omega

theorem slide_isSome (hput : MovesDown put)
    (hsome : ∀ removed write x buf, write < buf.length → (put removed write x buf).isSome)
    (out gap todo rest : List α) :
    (slide keep put todo.length (out.length + gap.length) out.length gap.length
      (out ++ gap ++ todo ++ rest)).isSome := by
  induction todo generalizing out gap with
  | nil => rfl
  | cons x todo ih =>
    have hx : (out ++ gap ++ x :: todo ++ rest)[out.length + gap.length]? = some x := by
      simp
    rw [length_cons, slide, hx, bind_some]
    by_cases hkeep : keep x
    · rw [if_pos hkeep]
      obtain ⟨buf, hbuf⟩ := isSome_iff_exists.mp
        (hsome gap.length out.length x (out ++ gap ++ x :: todo ++ rest) (by simp))
      obtain ⟨gap₁, hgap₁, rfl⟩ := hput out gap x (todo ++ rest) buf (by simpa using hbuf)
      have hpos : out.length + gap.length + 1 = (out ++ [x]).length + gap₁.length := by
        simp only [length_append, length_singleton]
        omega
      have hnext := ih (out ++ [x]) gap₁
      rw [← hpos, hgap₁] at hnext
      rw [hbuf]
      simpa using hnext
    · rw [if_neg hkeep]
      have hnext := ih out (gap ++ [x])
      simpa [add_assoc] using hnext

end

section

/-- The lists are moved up, the last one first: each with its length and the room it gets, then
the ends of the new and of the old places. The result begins with the new places. -/
def spread : List (ℕ × ℕ) → ℕ → ℕ → List α → Option (List ℕ × List α)
  | [], _, _, buf => some ([], buf)
  | (len, room) :: rest, newEnd, oldEnd, buf =>
    if newEnd < room ∨ oldEnd < len then none
    else (slice buf (oldEnd - len) len).bind fun xs =>
      (spread rest (newEnd - room) (oldEnd - len) (overwrite buf (newEnd - room) xs)).map
        fun r => (r.1 ++ [newEnd - room], r.2)

def segmentStarts : ℕ → List ℕ → List ℕ
  | _, [] => []
  | at', room :: rooms => at' :: segmentStarts (at' + room) rooms

@[simp] theorem length_segmentStarts (at' : ℕ) (rooms : List ℕ) :
    (segmentStarts at' rooms).length = rooms.length := by
  induction rooms generalizing at' with
  | nil => rfl
  | cons room rooms ih => simp [segmentStarts, ih]

theorem segmentStarts_append (at' : ℕ) (rooms rooms' : List ℕ) :
    segmentStarts at' (rooms ++ rooms') =
      segmentStarts at' rooms ++ segmentStarts (at' + rooms.sum) rooms' := by
  induction rooms generalizing at' with
  | nil => simp [segmentStarts]
  | cons room rooms ih => simp [segmentStarts, ih, add_assoc]

variable {rooms : List ℕ}

theorem le_of_mem_segmentStarts {at' p : ℕ} (h : p ∈ segmentStarts at' rooms) : at' ≤ p := by
  induction rooms generalizing at' with
  | nil => cases h
  | cons room rooms ih =>
    rcases mem_cons.mp h with rfl | h
    · exact le_rfl
    · have := ih h
      omega

theorem sum_le_of_zip {lists : List (List α)}
    (hlen : lists.length = rooms.length) (h : ∀ p ∈ lists.zip rooms, p.1.length ≤ p.2) :
    (lists.map length).sum ≤ rooms.sum := by
  induction lists generalizing rooms with
  | nil => simp
  | cons l lists ih =>
    cases rooms with
    | nil => simp at hlen
    | cons r rooms =>
      have hfirst := h (l, r) (by simp)
      have hrest := ih (by simpa using hlen) fun p hp => h p (mem_cons_of_mem _ hp)
      simp only [map_cons, sum_cons]
      simp only at hfirst
      omega

/-- The lists stand at their new places, and what is behind the last room is as before. -/
theorem spread_spec {lists : List (List α)} (hlen : lists.length = rooms.length)
    (hroom : ∀ p ∈ lists.zip rooms, p.1.length ≤ p.2) {buf : List α}
    (hbuf : buf.take (lists.map length).sum = lists.flatten) (hend : rooms.sum ≤ buf.length) :
    ∃ buf', spread ((lists.map length).zip rooms).reverse rooms.sum
        (lists.map length).sum buf = some (segmentStarts 0 rooms, buf') ∧
      buf'.length = buf.length ∧ buf'.drop rooms.sum = buf.drop rooms.sum ∧
      ∀ (i : ℕ) l p, lists[i]? = some l → (segmentStarts 0 rooms)[i]? = some p →
        slice buf' p l.length = some l := by
  induction lists using reverseRecOn generalizing rooms buf with
  | nil =>
    obtain rfl := eq_nil_of_length_eq_zero hlen.symm
    exact ⟨buf, rfl, rfl, rfl, by simp⟩
  | append_singleton ls l ih =>
    obtain ⟨rs, r, rfl⟩ : ∃ rs r, rooms = rs ++ [r] := by
      refine ⟨rooms.dropLast, rooms.getLast ?_, (dropLast_append_getLast _).symm⟩
      rintro rfl
      simp at hlen
    have hlen' : ls.length = rs.length := by simpa using hlen
    have hzip : (ls ++ [l]).zip (rs ++ [r]) = ls.zip rs ++ [(l, r)] := zip_append hlen'
    rw [hzip] at hroom
    have hl : l.length ≤ r := hroom (l, r) (by simp)
    have hroom' : ∀ p ∈ ls.zip rs, p.1.length ≤ p.2 := fun p hp => hroom p (mem_append_left _ hp)
    have hsum : (ls.map length).sum ≤ rs.sum := sum_le_of_zip hlen' hroom'
    simp only [map_append, map_cons, map_nil, sum_append, sum_cons,
      sum_nil, add_zero, flatten_append, flatten_cons, flatten_nil,
      append_nil] at hbuf hend ⊢
    -- the last list is read at its old place and written to its new one
    have hflat : ls.flatten.length = (ls.map length).sum := length_flatten
    have hlong : (ls.map length).sum + l.length ≤ buf.length := by
      omega
    have hread : slice buf (ls.map length).sum l.length = some l := by
      refine slice_eq_some.mpr ⟨hlong, ?_⟩
      have hpart : (buf.drop (ls.map length).sum).take l.length =
          (buf.take ((ls.map length).sum + l.length)).drop (ls.map length).sum := by
        rw [drop_take, Nat.add_sub_cancel_left]
      rw [hpart, hbuf, drop_left' hflat]
    have hnew : rs.sum + l.length ≤ buf.length := by omega
    have hbuf₁ : (overwrite buf rs.sum l).take (ls.map length).sum = ls.flatten := by
      have hpart : buf.take (ls.map length).sum =
          (buf.take ((ls.map length).sum + l.length)).take (ls.map length).sum := by
        rw [take_take, min_eq_left (Nat.le_add_right _ _)]
      rw [take_overwrite hsum (by omega), hpart, hbuf, take_left' hflat]
    obtain ⟨buf', hrun, hlen₁, hdrop, hslices⟩ := ih hlen' hroom' hbuf₁
      (by rw [length_overwrite hnew]; omega)
    refine ⟨buf', ?_, ?_, ?_, ?_⟩
    · rw [zip_append (by simpa using hlen'), reverse_append]
      have hcond : ¬ (rs.sum + r < r ∨ (ls.map length).sum + l.length < l.length) := by omega
      simp only [zip_cons_cons, zip_nil_right, reverse_singleton,
        singleton_append, spread, if_neg hcond, Nat.add_sub_cancel, hread, bind_some,
        hrun, map_some, segmentStarts_append, segmentStarts, zero_add]
    · rw [hlen₁, length_overwrite hnew]
    · rw [← drop_drop, hdrop, drop_drop, drop_overwrite (by omega) hnew]
    · intro i l' p hl' hp
      rw [segmentStarts_append] at hp
      by_cases hi : i < ls.length
      · rw [getElem?_append_left hi] at hl'
        rw [getElem?_append_left (by simpa using hlen' ▸ hi)] at hp
        exact hslices i l' p hl' hp
      · have hi' : i = ls.length := by
          have := (List.getElem?_eq_some_iff.mp hl').1
          simp only [length_append, length_singleton] at this
          omega
        subst hi'
        obtain rfl : l = l' := by simpa using hl'
        obtain rfl : rs.sum = p := by simpa [hlen', segmentStarts] using hp
        have hself := slice_eq_some.mp (slice_overwrite_self hnew)
        refine slice_eq_some.mpr ⟨by rw [hlen₁, length_overwrite hnew]; exact hnew, ?_⟩
        rw [hdrop, hself.2]

end

section

variable {rooms : List ℕ}

theorem segmentStarts_disjoint {i j p q r : ℕ} (at' : ℕ) (hij : i < j)
    (hp : (segmentStarts at' rooms)[i]? = some p) (hq : (segmentStarts at' rooms)[j]? = some q)
    (hr : rooms[i]? = some r) : p + r ≤ q := by
  induction rooms generalizing at' i j with
  | nil => simp at hr
  | cons room rooms ih =>
    cases j with
    | zero => omega
    | succ j =>
      cases i with
      | zero =>
        obtain rfl : at' = p := by simpa [segmentStarts] using hp
        obtain rfl : room = r := by simpa using hr
        exact le_of_mem_segmentStarts (mem_of_getElem? hq)
      | succ i =>
        exact ih (at' + room) (by omega) hp hq hr

theorem segmentStarts_le {i p r : ℕ} (at' : ℕ)
    (hp : (segmentStarts at' rooms)[i]? = some p) (hr : rooms[i]? = some r) :
    p + r ≤ at' + rooms.sum := by
  induction rooms generalizing at' i with
  | nil => simp at hr
  | cons room rooms ih =>
    rw [sum_cons]
    cases i with
    | zero =>
      obtain rfl : at' = p := by simpa [segmentStarts] using hp
      obtain rfl : room = r := by simpa using hr
      omega
    | succ i =>
      have := ih (at' + room) hp hr
      omega

theorem eq_flatten_of_slices {lists : List (List α)} {buf : List α} {at' : ℕ}
    (hlen : buf.length = at' + (lists.map length).sum) (h : ∀ (i : ℕ) l p, lists[i]? = some l →
      (segmentStarts at' (lists.map length))[i]? = some p → slice buf p l.length = some l) :
    buf.drop at' = lists.flatten := by
  induction lists generalizing at' with
  | nil => simpa using hlen.le
  | cons l lists ih =>
    have hfirst := (slice_eq_some.mp (h 0 l at' rfl rfl)).2
    rw [map_cons, sum_cons, ← add_assoc] at hlen
    have hrest := ih hlen fun i l' p hl' hp => h (i + 1) l' p hl' hp
    calc buf.drop at' = (buf.drop at').take l.length ++ (buf.drop at').drop l.length :=
          (take_append_drop _ _).symm
      _ = l ++ lists.flatten := by rw [hfirst, drop_drop, hrest]
      _ = (l :: lists).flatten := rfl

def placeRows (starts : List ℕ) : List (ℕ × α) → List ℕ → List α → Option (List α)
  | [], _, buf => some buf
  | (v, x) :: rows, ends, buf =>
    (starts[v]?).bind fun s => (ends[v]?).bind fun k =>
      if s + k < buf.length then placeRows starts rows (ends.set v (k + 1)) (buf.set (s + k) x)
      else none

def withRows (lists : List (List α)) (rows : List (ℕ × α)) : List (List α) :=
  rows.foldl (fun ls row => ls.modify row.1 (· ++ [row.2])) lists

@[simp] theorem length_withRows (lists : List (List α)) (rows : List (ℕ × α)) :
    (withRows lists rows).length = lists.length := by
  induction rows generalizing lists with
  | nil => rfl
  | cons row rows ih =>
    exact (ih _).trans (length_modify _ _ _)

theorem getElem?_withRows (lists : List (List α)) (rows : List (ℕ × α)) (i : ℕ) :
    (withRows lists rows)[i]? =
      (lists[i]?).map (· ++ (rows.filter fun row => row.1 = i).map Prod.snd) := by
  induction rows generalizing lists with
  | nil => simp [withRows]
  | cons row rows ih =>
    have hstep : withRows lists (row :: rows) =
        withRows (lists.modify row.1 (· ++ [row.2])) rows := rfl
    rw [hstep, ih]
    by_cases hi : row.1 = i
    · subst hi
      simp [Function.comp_def]
    · simp [hi]

theorem placeRows_spec {lists : List (List α)} {rows : List (ℕ × α)}
    {buf : List α} (hend : rooms.sum ≤ buf.length) (hlen : lists.length = rooms.length)
    (hrows : ∀ row ∈ rows, row.1 < lists.length)
    (hroom : ∀ (i : ℕ) l r, lists[i]? = some l → rooms[i]? = some r →
      l.length + rows.countP (fun row => row.1 = i) ≤ r)
    (hslices : ∀ (i : ℕ) l p, lists[i]? = some l → (segmentStarts 0 rooms)[i]? = some p →
      slice buf p l.length = some l) :
    ∃ buf', placeRows (segmentStarts 0 rooms) rows (lists.map length) buf = some buf' ∧
      buf'.length = buf.length ∧
      ∀ (i : ℕ) l p, (withRows lists rows)[i]? = some l → (segmentStarts 0 rooms)[i]? = some p →
        slice buf' p l.length = some l := by
  induction rows generalizing lists buf with
  | nil => exact ⟨buf, rfl, rfl, hslices⟩
  | cons row rows ih =>
    obtain ⟨v, x⟩ := row
    have hv : v < lists.length := hrows (v, x) mem_cons_self
    obtain ⟨l, hl⟩ : ∃ l, lists[v]? = some l := ⟨_, getElem?_eq_getElem hv⟩
    obtain ⟨r, hr⟩ : ∃ r, rooms[v]? = some r := ⟨_, getElem?_eq_getElem (hlen ▸ hv)⟩
    obtain ⟨s, hs⟩ : ∃ s, (segmentStarts 0 rooms)[v]? = some s :=
      ⟨_, getElem?_eq_getElem (by simpa using hlen ▸ hv)⟩
    have hfit : l.length + 1 ≤ r := by
      have := hroom v l r hl hr
      simp only [countP_cons, decide_true, if_true] at this
      omega
    have hbound := segmentStarts_le 0 hs hr
    have hpos : s + l.length < buf.length := by omega
    -- the row goes behind its list and leaves the others alone
    have hslices' : ∀ (i : ℕ) l' p, (lists.modify v (· ++ [x]))[i]? = some l' →
        (segmentStarts 0 rooms)[i]? = some p →
        slice (buf.set (s + l.length) x) p l'.length = some l' := by
      intro i l' p hl' hp
      by_cases hi : v = i
      · subst hi
        obtain rfl : s = p := some.inj (hs.symm.trans hp)
        obtain rfl : l ++ [x] = l' := by simpa [hl] using hl'
        rw [length_append]
        exact slice_set_end (hslices v l s hl hs) hpos
      · have hl₀ : lists[i]? = some l' := by simpa [hi] using hl'
        obtain ⟨r', hri⟩ : ∃ r', rooms[i]? = some r' :=
          ⟨_, getElem?_eq_getElem (hlen ▸ (List.getElem?_eq_some_iff.mp hl₀).1)⟩
        have hfit' := hroom i l' _ hl₀ hri
        rw [slice_set_ne]
        · exact hslices i l' p hl₀ hp
        · rcases lt_or_gt_of_ne hi with hlt | hgt
          · have := segmentStarts_disjoint 0 hlt hs hp hr
            omega
          · have := segmentStarts_disjoint 0 hgt hp hs hri
            omega
    have hroom' : ∀ (i : ℕ) l' r', (lists.modify v (· ++ [x]))[i]? = some l' →
        rooms[i]? = some r' → l'.length + rows.countP (fun row => row.1 = i) ≤ r' := by
      intro i l' r' hl' hr'
      by_cases hi : v = i
      · subst hi
        obtain rfl : l ++ [x] = l' := by simpa [hl] using hl'
        have := hroom v l r' hl hr'
        simp only [countP_cons, decide_true, if_true] at this
        simp only [length_append, length_singleton]
        omega
      · have := hroom i l' r' (by simpa [hi] using hl') hr'
        simp only [countP_cons] at this
        omega
    obtain ⟨buf', hrun, hlen', hdone⟩ := ih (by simpa using hend) (by simpa using hlen)
      (fun row hrow => by simpa using hrows row (mem_cons_of_mem _ hrow)) hroom' hslices'
    refine ⟨buf', ?_, by simpa using hlen', hdone⟩
    have hends : (lists.map length)[v]? = some l.length := by simp [hl]
    have hends' : (lists.map length).set v (l.length + 1) =
        (lists.modify v (· ++ [x])).map length := by
      apply ext_getElem?
      intro i
      rw [getElem?_map, getElem?_modify]
      by_cases hi : v = i
      · subst hi
        rw [hl]
        simp [hv]
      · simp [hi]
    rw [placeRows, hs, bind_some, hends, bind_some, if_pos hpos, hends']
    exact hrun

end

section

/-- Pointers to lists that stand one behind another from `at'` on. An empty list may have none. -/
def Pointers : ℕ → List (List α) → List (Option ℕ) → Prop
  | _, [], [] => True
  | at', l :: ls, s :: ss => (s = some at' ∨ s = none ∧ l = []) ∧ Pointers (at' + l.length) ls ss
  | _, _, _ => False

variable {ss : List (Option ℕ)} {at' : ℕ} {ls : List (List α)}

theorem Pointers.length_eq (h : Pointers at' ls ss) : ss.length = ls.length := by
  induction ls generalizing at' ss with
  | nil =>
    cases ss with
    | nil => rfl
    | cons s ss => exact h.elim
  | cons l ls ih =>
    cases ss with
    | nil => exact h.elim
    | cons s ss => rw [length_cons, length_cons, ih h.2]

theorem pointers_segmentStarts (at' : ℕ) (ls : List (List α)) :
    Pointers at' ls ((segmentStarts at' (ls.map length)).map some) := by
  induction ls generalizing at' with
  | nil => trivial
  | cons l ls ih => exact ⟨.inl rfl, ih _⟩

theorem Pointers.split {v : ℕ} (h : Pointers at' ls ss) {l : List α} (hl : ls[v]? = some l)
    {s : Option ℕ} (hs : ss[v]? = some s) : ∃ front back, ls = front ++ l :: back ∧
      (∀ f, ls.modify v f = front ++ f l :: back) ∧
      (s = some (at' + front.flatten.length) ∨ s = none ∧ l = []) := by
  induction ls generalizing at' v ss with
  | nil => simp at hl
  | cons x ls ih =>
    cases ss with
    | nil => exact h.elim
    | cons t ss =>
      cases v with
      | zero =>
        obtain rfl : x = l := by simpa using hl
        obtain rfl : t = s := by simpa using hs
        exact ⟨[], ls, rfl, fun f => rfl, h.1⟩
      | succ v =>
        obtain ⟨front, back, rfl, hmod, hat⟩ := ih h.2 hl hs
        exact ⟨x :: front, back, rfl, by simp [hmod], by simpa [add_assoc] using hat⟩

theorem Pointers.slice_eq {v : ℕ}
    (h : Pointers at' ls ss) {pre l : List α} (hpre : pre.length = at') {s : ℕ}
    (hl : ls[v]? = some l) (hs : ss[v]? = some (some s)) :
    slice (pre ++ ls.flatten) s l.length = some l := by
  obtain ⟨front, back, rfl, -, hat | ⟨hat, -⟩⟩ := h.split hl hs
  · rw [some.inj hat, ← hpre, ← length_append, flatten_append, flatten_cons, ← append_assoc,
      ← append_assoc, slice_append_left (by simp [add_assoc]), slice_append_right]
  · cases hat

theorem Pointers.eq_nil {v : ℕ}
    (h : Pointers at' ls ss) {l : List α} (hl : ls[v]? = some l) (hs : ss[v]? = some none) :
    l = [] := by
  obtain ⟨_, _, -, -, hat | ⟨-, hnil⟩⟩ := h.split hl hs
  · cases hat
  · exact hnil

theorem Pointers.of_lengths {ls' : List (List α)}
    (h : Pointers at' ls ss) (hlen : ls'.map length = ls.map length) : Pointers at' ls' ss := by
  induction ls generalizing at' ls' ss with
  | nil =>
    obtain rfl : ls' = [] := by simpa using hlen
    exact h
  | cons l ls ih =>
    cases ls' with
    | nil => simp at hlen
    | cons l' ls' =>
      cases ss with
      | nil => exact h.elim
      | cons s ss =>
        obtain ⟨hl, hrest⟩ := cons.inj hlen
        refine ⟨h.1.imp_right fun hnil => ⟨hnil.1, ?_⟩, ?_⟩
        · exact eq_nil_of_length_eq_zero (hl.trans (by rw [hnil.2, length_nil]))
        · rw [hl]
          exact ih h.2 hrest

theorem pointers_replicate (at' n : ℕ) :
    Pointers (α := α) at' (replicate n []) (replicate n none) := by
  induction n with
  | zero => trivial
  | succ n ih => exact ⟨.inr ⟨rfl, rfl⟩, ih⟩

theorem Pointers.fit
    (h : Pointers at' ls ss) (n : ℕ) : Pointers at' (fit [] n ls) (fit none n ss) := by
  induction ls generalizing at' ss n with
  | nil =>
    cases ss with
    | cons s ss => exact h.elim
    | nil => simpa [Lib.fit] using pointers_replicate at' n
  | cons l ls ih =>
    cases ss with
    | nil => exact h.elim
    | cons s ss =>
      cases n with
      | zero => simp [Lib.fit, Pointers]
      | succ n =>
        have hrest := ih h.2 n
        simp only [Lib.fit, length_cons,
          Nat.add_sub_add_right] at hrest ⊢
        exact ⟨h.1, hrest⟩

theorem Pointers.set_eq {v i : ℕ}
    (h : Pointers at' ls ss) {pre l : List α} (hpre : pre.length = at') {s : ℕ}
    (hl : ls[v]? = some l) (hs : ss[v]? = some (some s)) (hi : i < l.length) (x : α) :
    (pre ++ ls.flatten).set (s + i) x = pre ++ (ls.modify v (·.set i x)).flatten := by
  obtain ⟨front, back, rfl, hmod, hat | ⟨hat, -⟩⟩ := h.split hl hs
  · simp [hmod, some.inj hat, ← hpre, add_assoc, hi]
  · cases hat

def rewriteLists (f : ℕ → List α → List α) : ℕ → List (ℕ × Option ℕ) → List α → Option (List α)
  | _, [], buf => some buf
  | v, (len, start) :: rest, buf =>
    if len = 0 then rewriteLists f (v + 1) rest buf
    else start.bind fun s => (slice buf s len).bind fun l =>
      rewriteLists f (v + 1) rest (overwrite buf s (f v l))

theorem rewriteLists_spec {f : ℕ → List α → List α} (hf : ∀ v l, (f v l).length = l.length)
    (v : ℕ) (h : Pointers at' ls ss) {pre : List α} (hpre : pre.length = at') :
    rewriteLists f v ((ls.map length).zip ss) (pre ++ ls.flatten) =
      some (pre ++ (ls.mapIdx fun i l => f (v + i) l).flatten) := by
  induction ls generalizing at' v ss pre with
  | nil => simp [rewriteLists]
  | cons l ls ih =>
    cases ss with
    | nil => exact h.elim
    | cons s ss =>
      have hpre' : (pre ++ f v l).length = at' + l.length := by
        rw [length_append, hpre, hf]
      have hnext := ih (v + 1) h.2 hpre'
      have hshift : (fun i l => f (v + 1 + i) l) = fun i (l : List α) => f (v + (i + 1)) l := by
        funext i l
        congr 1
        omega
      rw [hshift] at hnext
      simp only [map_cons, zip_cons_cons, rewriteLists, flatten_cons, mapIdx_cons, add_zero]
      by_cases hl : l.length = 0
      · have hnil : f v l = l := by
          have := hf v l
          rw [hl] at this
          rw [eq_nil_of_length_eq_zero this, eq_nil_of_length_eq_zero hl]
        rw [if_pos hl]
        rw [hnil] at hnext ⊢
        simpa using hnext
      · have hs : s = some at' := h.1.resolve_right fun hnil => hl (by simp [hnil.2])
        have hread : slice (pre ++ (l ++ ls.flatten)) at' l.length = some l := by
          rw [← append_assoc, slice_append_left (by simp [hpre]), ← hpre, slice_append_right]
        have hwrite : overwrite (pre ++ (l ++ ls.flatten)) at' (f v l) =
            pre ++ f v l ++ ls.flatten := by
          rw [overwrite, take_left' hpre, hf, ← append_assoc pre, drop_left' (by simp [hpre])]
        rw [if_neg hl, hs, bind_some, hread, bind_some, hwrite, hnext, append_assoc]

end

section

variable {p : α → Bool}

theorem foldl_fixes {β γ : Type} {f : β → α → β} (g : β → γ) (l : List α)
    (h : ∀ b, ∀ a ∈ l, g (f b a) = g b) (b : β) : g (l.foldl f b) = g b :=
  foldlRecOn (motive := fun b' => g b' = g b) l f rfl fun b' hb a ha => (h b' a ha).trans hb

theorem countP_set_add {l : List α} {i : ℕ} {x : α} (hx : l[i]? = some x) (y : α) :
    (l.set i y).countP p + (if p x then 1 else 0) = l.countP p + if p y then 1 else 0 := by
  induction l generalizing i with
  | nil => simp at hx
  | cons z l ih =>
    cases i with
    | zero =>
      obtain rfl : z = x := by simpa using hx
      simp only [set_cons_zero, countP_cons]
      omega
    | succ i =>
      have hrest := ih hx
      simp only [set_cons_succ, countP_cons]
      omega

theorem countP_mapIdx_add {f : ℕ → α → α} {gone : ℕ → α → Bool}
    (h : ∀ i x, (if p (f i x) then 1 else 0) + (if gone i x then 1 else 0) = if p x then 1 else 0)
    (l : List α) : (l.mapIdx f).countP p + (l.mapIdx gone).countP id = l.countP p := by
  induction l generalizing f gone with
  | nil => rfl
  | cons x l ih =>
    have hfirst := h 0 x
    have hrest : (l.mapIdx fun i => f (i + 1)).countP p +
        (l.mapIdx fun i => gone (i + 1)).countP id = l.countP p := ih fun i => h (i + 1)
    simp only [mapIdx_cons, countP_cons, id] at hrest ⊢
    omega

theorem countP_flatten_mapIdx {f : ℕ → List α → List α} {gone : ℕ → List α → ℕ} {ls : List (List α)}
    (h : ∀ (i : ℕ) l, ls[i]? = some l → (f i l).countP p + gone i l = l.countP p) :
    (ls.mapIdx f).flatten.countP p + (ls.mapIdx gone).sum = ls.flatten.countP p := by
  induction ls generalizing f gone with
  | nil => simp
  | cons l ls ih =>
    have hfirst := h 0 l rfl
    have hrest : (ls.mapIdx fun i => f (i + 1)).flatten.countP p +
        (ls.mapIdx fun i => gone (i + 1)).sum = ls.flatten.countP p :=
      ih fun i l' hl' => h (i + 1) l' hl'
    simp only [mapIdx_cons, flatten_cons, countP_append, sum_cons]
    omega

theorem countP_flatten_modify {f : List α → List α} {ls : List (List α)} {v : ℕ}
    {l : List α} (hl : ls[v]? = some l) :
    (ls.modify v f).flatten.countP p + l.countP p = ls.flatten.countP p + (f l).countP p := by
  induction ls generalizing v with
  | nil => simp at hl
  | cons x ls ih =>
    cases v with
    | zero =>
      obtain rfl : x = l := by simpa using hl
      simp only [modify_zero_cons, flatten_cons, countP_append]
      omega
    | succ v =>
      have hrest := ih hl
      simp only [modify_succ_cons, flatten_cons, countP_append]
      omega

theorem countP_flatten_withRows {lists : List (List α)} {rows : List (ℕ × α)}
    (hrows : ∀ row ∈ rows, row.1 < lists.length) : (withRows lists rows).flatten.countP p =
      lists.flatten.countP p + rows.countP fun row => p row.2 := by
  induction rows generalizing lists with
  | nil => rfl
  | cons row rows ih =>
    have hrow := getElem?_eq_getElem (hrows row mem_cons_self)
    have hone := countP_flatten_modify (f := (· ++ [row.2])) (p := p) hrow
    have hrows' : ∀ r ∈ rows, r.1 < (lists.modify row.1 (· ++ [row.2])).length := fun r hr => by
      simpa using hrows r (mem_cons_of_mem _ hr)
    have hstep : withRows lists (row :: rows) =
        withRows (lists.modify row.1 (· ++ [row.2])) rows := rfl
    rw [hstep, ih hrows', countP_cons]
    rw [countP_append, countP_singleton] at hone
    omega

end

end Neug.Lib
