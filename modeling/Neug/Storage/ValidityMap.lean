import Neug.Lib.Reach
import Neug.Storage.VertexTimestamp

/-! The validity map behind `VertexTimestamp`: for each vertex the timestamp of its last
insertion, if it has not been removed since. Every member function is compared with its
effect on the map. -/
namespace Neug.Storage
open Neug.Lib List Option Finset

abbrev ValidityMap := ℕ → Option ℕ

namespace ValidityMap

def validAt (f : ValidityMap) (u t : ℕ) : Bool :=
  match f u with
  | some ts => decide (ts ≤ t)
  | none => false

/-- The vertices below `k`, all present from the beginning. -/
def first (k : ℕ) : ValidityMap := fun u => if u < k then some 0 else none

def set (f : ValidityMap) (v : ℕ) (ts : Option ℕ) : ValidityMap :=
  fun u => if u = v then ts else f u

def insert (f : ValidityMap) (v ts : ℕ) : ValidityMap :=
  if f v = none then f.set v (some ts) else f

def settle (f : ValidityMap) : ValidityMap := fun u => (f u).map fun _ => 0

end ValidityMap

/-- The calls that change a `VertexTimestamp`. -/
inductive VertexOp where
  | init (initVertexNum maxVertexNum : ℕ)
  | reserve (newSize : ℕ)
  | insert (v ts : ℕ)
  | remove (v : ℕ)
  | revertRemove (v ts : ℕ)
  | compact
  | dumpOpen
  deriving DecidableEq, Repr

def VertexOp.target : VertexOp → Option ℕ
  | .insert v _ | .remove v | .revertRemove v _ => some v
  | _ => none

def VertexTimestamp.apply (x : VertexTimestamp) : VertexOp → Option VertexTimestamp
  | .init i m => some (x.init i m)
  | .reserve k => some (x.reserve k)
  | .insert v ts => (x.insertVertex v ts).map Prod.fst
  | .remove v => some (x.removeVertex v).1
  | .revertRemove v ts => (x.revertRemoveVertex v ts).map Prod.fst
  | .compact => some x.compact
  | .dumpOpen => VertexTimestamp.openTs x.dump.2

def ValidityMap.apply (f : ValidityMap) : VertexOp → ValidityMap
  | .init i _ => .first i
  | .reserve _ => f
  | .insert v ts => f.insert v ts
  | .remove v => f.set v none
  | .revertRemove v ts => f.set v (some ts)
  | .compact | .dumpOpen => f.settle

def vertexStep (s : VertexTimestamp × ValidityMap) (op : VertexOp) :
    Option (VertexTimestamp × ValidityMap) :=
  (s.1.apply op).map fun x => (x, s.2.apply op)

def VertexInitial (s : VertexTimestamp × ValidityMap) : Prop :=
  s = (VertexTimestamp.empty, fun _ => none)

namespace VertexTimestamp

variable {x y : VertexTimestamp} {u v t ts k : ℕ}

def entry (x : VertexTimestamp) : ValidityMap := fun u =>
  if u < x.initVertexNum then if u ∈ x.removedSet then none else some 0
  else
    match x.inserted[u - x.initVertexNum]? with
    | some ts => if ts = deletedTimestamp then none else some ts
    | none => none

def Tight (x : VertexTimestamp) : Prop := ∀ v ∈ x.removedSet, v < x.initVertexNum

/-- Where the object does what the map says. An insertion goes to an entry of the array, or
finds a vertex of the initial prefix present; a reverted removal restores the timestamp that
was there; `Reserve` does not cut off present vertices; `Init` is not skipped. -/
def Sound (x : VertexTimestamp) : VertexOp → Prop
  | .init i m => i ≠ x.initVertexNum ∨ m ≠ x.maxVertexNum ∨
      (x.removedSet = ∅ ∧ ∀ ts ∈ x.inserted, ts = deletedTimestamp)
  | .reserve k => x.initVertexNum < k ∨ ∀ u < x.maxVertexNum, k ≤ u → x.entry u = none
  | .insert v ts => ts < deletedTimestamp ∧
      (x.initVertexNum ≤ v ∨ (ts = 0 ∧ v ∉ x.removedSet))
  | .revertRemove v ts => ts < deletedTimestamp ∧ (x.initVertexNum ≤ v ∨ ts = 0)
  | .remove _ | .compact | .dumpOpen => True

instance (x : VertexTimestamp) : (op : VertexOp) → Decidable (x.Sound op)
  | .init i m => inferInstanceAs (Decidable (i ≠ x.initVertexNum ∨ m ≠ x.maxVertexNum ∨
      (x.removedSet = ∅ ∧ ∀ ts ∈ x.inserted, ts = deletedTimestamp)))
  | .reserve k => inferInstanceAs (Decidable (x.initVertexNum < k ∨
      ∀ u < x.maxVertexNum, k ≤ u → x.entry u = none))
  | .insert v ts => inferInstanceAs (Decidable (ts < deletedTimestamp ∧
      (x.initVertexNum ≤ v ∨ (ts = 0 ∧ v ∉ x.removedSet))))
  | .revertRemove v ts => inferInstanceAs (Decidable (ts < deletedTimestamp ∧
      (x.initVertexNum ≤ v ∨ ts = 0)))
  | .remove _ | .compact | .dumpOpen => .isTrue trivial

theorem entry_of_lt (h : u < x.initVertexNum) :
    x.entry u = if u ∈ x.removedSet then none else some 0 := if_pos h

theorem entry_of_ge (h : x.initVertexNum ≤ u) :
    x.entry u = match x.inserted[u - x.initVertexNum]? with
      | some ts => if ts = deletedTimestamp then none else some ts
      | none => none := if_neg (not_lt.mpr h)

theorem entry_of_max_le (h : x.maxVertexNum ≤ u) : x.entry u = none := by
  have hsize := x.size
  rw [entry_of_ge (by omega), getElem?_eq_none (by omega)]

/-- `IsVertexValid` reads the map, except one past the end of the array. -/
theorem isVertexValid_eq (hu : u ≠ x.maxVertexNum) (ht : t < deletedTimestamp) :
    x.isVertexValid u t = some (x.entry.validAt u t) := by
  have hsize := x.size
  unfold isVertexValid ValidityMap.validAt
  split_ifs with hmax hinit
  · rw [entry_of_max_le hmax.le]
  · rw [entry_of_ge hinit]
    obtain ⟨ts, hts⟩ : ∃ ts, x.inserted[u - x.initVertexNum]? = some ts :=
      ⟨_, getElem?_eq_getElem (by omega)⟩
    rw [hts]
    by_cases hdel : ts = deletedTimestamp
    · simp [hdel, ht]
    · simp [hdel]
  · rw [entry_of_lt (by omega)]
    unfold removedSet
    cases x.removed with
    | none => simp
    | some s =>
      by_cases hs : u ∈ s <;> simp [hs]

theorem entry_setEntry (hinit : x.initVertexNum ≤ v) (hmax : v < x.maxVertexNum) :
    (x.setEntry v ts).entry = x.entry.set v (if ts = deletedTimestamp then none else some ts) := by
  have hsize := x.size
  funext u
  unfold ValidityMap.set
  by_cases hu : x.initVertexNum ≤ u
  · rw [entry_of_ge (x := x.setEntry v ts) hu, entry_of_ge hu]
    simp only [setEntry]
    by_cases huv : u = v
    · subst huv
      rw [getElem?_set_self (by omega), if_pos rfl]
    · rw [getElem?_set_ne (by omega), if_neg huv]
  · have huv : u ≠ v := by omega
    rw [entry_of_lt (by simpa [setEntry] using hu), entry_of_lt (by omega),
      if_neg huv]
    rfl

theorem entry_init (hs : x.Sound (.init u k)) : (x.init u k).entry = .first u := by
  funext w
  unfold init ValidityMap.first
  split_ifs with hsame hw hw
  · obtain ⟨rfl, rfl⟩ := hsame
    rcases hs with hs | hs | ⟨hrem, -⟩
    · exact absurd rfl hs
    · exact absurd rfl hs
    · simp [entry_of_lt hw, hrem]
  · obtain ⟨rfl, rfl⟩ := hsame
    rcases hs with hs | hs | ⟨-, hdel⟩
    · exact absurd rfl hs
    · exact absurd rfl hs
    · rw [entry_of_ge (by omega)]
      cases hget : x.inserted[w - x.initVertexNum]? with
      | none => rfl
      | some ts => simp [hdel ts (mem_of_getElem? hget)]
  · rw [entry_of_lt (by simpa using hw)]
    simp [removedSet]
  · rw [entry_of_ge (by simpa using hw)]
    simp only [getElem?_replicate]
    split_ifs <;> simp

theorem tight_init (h : x.Tight) : (x.init u k).Tight := by
  unfold init
  split_ifs
  · exact h
  · intro w hw
    simp [removedSet] at hw

theorem getElem?_resizeInserted_front (old : List ℕ) (newSize i : ℕ) (h : old.length ≤ newSize) :
    (resizeInserted old newSize true)[i]? =
      if i < old.length then old[i]? else if i < newSize then some deletedTimestamp else none := by
  simp only [resizeInserted, min_eq_right h, take_length, getElem?_append,
    getElem?_replicate]
  split_ifs <;> first | rfl | omega

theorem resizeInserted_back (old : List ℕ) (i : ℕ) (h : i ≤ old.length) :
    resizeInserted old (old.length - i) false = old.drop i := by
  unfold resizeInserted
  simp [Nat.sub_sub_self h]

theorem entry_reserve (hs : x.Sound (.reserve k)) : (x.reserve k).entry = x.entry := by
  have hsize := x.size
  funext u
  unfold reserve
  split_ifs with hsame hshrink
  · rfl
  · by_cases hu : u < k
    · rw [entry_of_lt (by simpa using hu), entry_of_lt (by omega)]
      congr 1
      unfold removedSet
      cases x.removed <;> simp [hu]
    · rw [entry_of_max_le (by simpa using hu)]
      rcases hs with hs | hs
      · omega
      · by_cases hmax : u < x.maxVertexNum
        · exact (hs u hmax (by omega)).symm
        · exact (entry_of_max_le (by omega)).symm
  · by_cases hu : u < x.initVertexNum
    · rw [entry_of_lt (by simpa using hu), entry_of_lt hu]
      rfl
    · rw [entry_of_ge (by simpa using hu), entry_of_ge (by omega)]
      simp only
      rw [getElem?_resizeInserted_front _ _ _ (by omega)]
      split_ifs with h1 h2
      · rfl
      · rw [getElem?_eq_none (by omega)]
        simp
      · rw [getElem?_eq_none (by omega)]

theorem tight_reserve (h : x.Tight) : (x.reserve k).Tight := by
  unfold reserve
  split_ifs with hsame hshrink
  · exact h
  · intro w hw
    unfold removedSet at hw
    cases hr : x.removed <;> simp [hr] at hw
    exact hw.2
  · exact h

variable {r : Except VertexError Unit}

theorem entry_insertVertex (hs : x.Sound (.insert v ts))
    (h : x.insertVertex v ts = some (y, r)) : y.entry = x.entry.insert v ts := by
  obtain ⟨hts, hv⟩ := hs
  unfold insertVertex at h
  unfold ValidityMap.insert
  split_ifs at h with hlt h0
  · -- a present vertex of the initial prefix
    cases h
    rcases hv with hv | ⟨-, hv⟩
    · omega
    · simp [entry_of_lt hlt, hv]
  · rcases hv with hv | ⟨hv, -⟩
    · omega
    · exact absurd hv h0
  · have hinit : x.initVertexNum ≤ v := by omega
    unfold claimEntry at h
    cases hget : x.inserted[v - x.initVertexNum]? with
    | none => simp [hget] at h
    | some old =>
      have hlen := (List.getElem?_eq_some_iff.mp hget).1
      have hsize := x.size
      simp only [hget] at h
      split_ifs at h with hdel
      · cases h
        have hnone : x.entry v = none := by simp [entry_of_ge hinit, hget, hdel]
        rw [if_pos hnone, entry_setEntry hinit (by omega), if_neg hts.ne]
      · cases h
        have hsome : x.entry v ≠ none := by simp [entry_of_ge hinit, hget, hdel]
        rw [if_neg hsome]

theorem tight_insertVertex (hx : x.Tight)
    (hs : x.Sound (.insert v ts)) (h : x.insertVertex v ts = some (y, r)) : y.Tight := by
  obtain ⟨hts, hv⟩ := hs
  unfold insertVertex at h
  split_ifs at h with hlt h0
  · cases h
    exact hx
  · rcases hv with hv | ⟨hv, -⟩
    · omega
    · exact absurd hv h0
  · unfold claimEntry at h
    split at h
    · cases h
    · split_ifs at h
      · cases h
        exact hx
      · cases h
        exact hx

theorem entry_removeVertex : (x.removeVertex v).1.entry = x.entry.set v none := by
  have hsize := x.size
  -- where the vertex is absent already, nothing is stored
  have hkeep : x.entry v = none → x.entry = x.entry.set v none := by
    intro hv
    funext u
    unfold ValidityMap.set
    split_ifs with huv
    · rw [huv, hv]
    · rfl
  unfold removeVertex
  split_ifs with hmax hinit
  · exact hkeep (entry_of_max_le hmax)
  · simp only
    split_ifs with hdel
    · apply hkeep
      have hget : x.inserted[v - x.initVertexNum]? = some deletedTimestamp := by
        rw [getD_eq_getElem?_getD] at hdel
        rw [getElem?_eq_getElem (by omega)] at hdel ⊢
        simpa using hdel
      simp [entry_of_ge hinit, hget]
    · rw [entry_setEntry hinit (by omega), if_pos rfl]
  · funext u
    unfold ValidityMap.set
    by_cases hu : u < x.initVertexNum
    · rw [entry_of_lt (by simpa using hu), entry_of_lt hu]
      by_cases huv : u = v
      · simp [removedSet, huv]
      · simp only [removedSet, getD_some, mem_insert, huv, false_or, if_false]
        congr
    · rw [entry_of_ge (by simpa using hu), entry_of_ge (by omega), if_neg (by omega)]

theorem tight_removeVertex (hx : x.Tight) : (x.removeVertex v).1.Tight := by
  unfold removeVertex
  split_ifs with hmax hinit
  · exact hx
  · simp only
    split_ifs
    · exact hx
    · exact hx
  · intro w hw
    rcases mem_insert.mp (by simpa [removedSet] using hw) with rfl | hw
    · simpa using hinit
    · exact hx w hw

theorem entry_revertRemoveVertex
    (hs : x.Sound (.revertRemove v ts)) (h : x.revertRemoveVertex v ts = some (y, r)) :
    y.entry = x.entry.set v (some ts) := by
  obtain ⟨hts, hv⟩ := hs
  unfold revertRemoveVertex at h
  split_ifs at h with hmax hinit
  · cases h
    rw [entry_setEntry hinit (by omega), if_neg hts.ne]
  · have h0 : ts = 0 := by
      rcases hv with hv | hv
      · exact absurd hv hinit
      · exact hv
    subst h0
    -- every vertex but `v` keeps its standing in the removed set
    have hkey : ∀ u, y.entry u = x.entry.set v (some 0) u := by
      intro u
      unfold ValidityMap.set
      cases hr : x.removed with
      | none =>
        simp only [hr] at h
        cases h
        split_ifs with huv
        · rw [entry_of_lt (by omega)]
          simp [removedSet, hr]
        · rfl
      | some s =>
        simp only [hr] at h
        cases h
        by_cases hu : u < x.initVertexNum
        · rw [entry_of_lt (by simpa using hu), entry_of_lt hu]
          by_cases huv : u = v <;> simp [removedSet, hr, huv]
        · rw [entry_of_ge (by simpa using hu), entry_of_ge (by omega), if_neg (by omega)]
    exact funext hkey

theorem tight_revertRemoveVertex (hx : x.Tight)
    (h : x.revertRemoveVertex v ts = some (y, r)) : y.Tight := by
  unfold revertRemoveVertex at h
  split_ifs at h with hmax hinit
  · cases h
    exact hx
  · cases hr : x.removed with
    | none =>
      simp only [hr] at h
      cases h
      exact hx
    | some s =>
      simp only [hr] at h
      cases h
      intro w hw
      exact hx w (by simp [removedSet, hr] at hw ⊢; exact hw.2)

theorem entry_resetTimestamps : x.resetTimestamps.entry = x.entry.settle := by
  funext u
  unfold ValidityMap.settle
  by_cases hu : u < x.initVertexNum
  · rw [entry_of_lt (by simpa [resetTimestamps] using hu), entry_of_lt hu]
    by_cases hr : u ∈ x.removedSet
    · have hr' : u ∈ x.resetTimestamps.removedSet := hr
      simp [hr, hr']
    · have hr' : u ∉ x.resetTimestamps.removedSet := hr
      simp [hr, hr']
  · rw [entry_of_ge (by simpa [resetTimestamps] using hu), entry_of_ge (by omega)]
    simp only [resetTimestamps, getElem?_map]
    cases x.inserted[u - x.initVertexNum]? with
    | none => rfl
    | some ts =>
      have hzero : 0 ≠ deletedTimestamp := by decide
      by_cases hdel : ts = deletedTimestamp <;> simp [hdel, hzero]

theorem getElem?_of_lt_firstNonZero {i : ℕ} (x : VertexTimestamp) (h : i < x.firstNonZero) :
    x.inserted[i]? = some 0 := by
  have hsplit : x.inserted[i]? = (x.inserted.takeWhile (· = 0))[i]? := by
    conv_lhs => rw [← takeWhile_append_dropWhile (p := (· = 0)) (l := x.inserted)]
    exact getElem?_append_left h
  rw [hsplit, getElem?_eq_getElem h]
  simpa using mem_takeWhile_imp (getElem_mem h)

/-- Dropping the leading entries loses the vertices among them that stand in the removed set,
and no others. -/
theorem entry_dropLeading_apply (x : VertexTimestamp) (u : ℕ) : x.dropLeading.entry u =
      if x.initVertexNum ≤ u ∧ u < x.initVertexNum + x.firstNonZero ∧ u ∈ x.removedSet then none
      else x.entry u := by
  have hle := x.firstNonZero_le
  unfold dropLeading
  split_ifs with hpos hlost hlost
  · rw [entry_of_lt (by simpa using hlost.2.1)]
    exact if_pos hlost.2.2
  · by_cases hu : u < x.initVertexNum
    · rw [entry_of_lt (by simp; omega), entry_of_lt hu]
      rfl
    · by_cases hu' : u < x.initVertexNum + x.firstNonZero
      · -- a dropped entry: its vertex joins the initial prefix
        have hzero := x.getElem?_of_lt_firstNonZero (i := u - x.initVertexNum) (by omega)
        have hrem : u ∉ x.removedSet := fun hr => hlost ⟨by omega, hu', hr⟩
        rw [entry_of_lt (by simpa using hu'), entry_of_ge (by omega), hzero]
        exact (if_neg hrem).trans (if_neg (by decide)).symm
      · rw [entry_of_ge (by simpa using hu'), entry_of_ge (by omega)]
        simp only [resizeInserted_back _ _ hle, getElem?_drop]
        congr 2
        omega
  · omega
  · rfl

theorem entry_dropLeading (hx : x.Tight) : x.dropLeading.entry = x.entry := by
  funext u
  rw [entry_dropLeading_apply, if_neg]
  rintro ⟨hge, -, hr⟩
  exact absurd (hx u hr) (not_lt.mpr hge)

theorem tight_dropLeading (hx : x.Tight) : x.dropLeading.Tight := by
  unfold dropLeading
  split_ifs
  · exact fun w hw => (hx w hw).trans_le (Nat.le_add_right _ _)
  · exact hx

theorem entry_compact (hx : x.Tight) : x.compact.entry = x.entry.settle := by
  unfold compact
  rw [entry_dropLeading (x := x.resetTimestamps) hx, entry_resetTimestamps]

theorem tight_compact (hx : x.Tight) : x.compact.Tight :=
  tight_dropLeading hx

/-- `Open` reads back what `Dump` wrote; only an empty removed set is forgotten. -/
theorem openTs_dumpTs (x : VertexTimestamp) :
    ∃ y, openTs x.dumpTs = some y ∧ y.initVertexNum = x.initVertexNum ∧
      y.maxVertexNum = x.maxVertexNum ∧ y.inserted = x.inserted ∧ y.removedSet = x.removedSet := by
  have hsize : x.dumpTs.initVertexNum + x.dumpTs.timestamps.length = x.dumpTs.maxVertexNum := x.size
  unfold openTs
  rw [dif_pos hsize]
  refine ⟨_, rfl, rfl, rfl, rfl, ?_⟩
  unfold removedSet dumpTs
  split_ifs with hlen
  · rw [length_sort, card_eq_zero] at hlen
    exact hlen.symm
  · exact sort_toFinset _ _

theorem settle_settle (f : ValidityMap) : f.settle.settle = f.settle := by
  funext u
  unfold ValidityMap.settle
  cases f u <;> rfl

theorem entry_dumpOpen (hx : x.Tight) (h : openTs x.dump.2 = some y) :
    y.entry = x.entry.settle ∧ y.Tight := by
  obtain ⟨z, hz, hinit, -, hins, hrem⟩ := openTs_dumpTs x.resetTimestamps.compact
  obtain rfl : z = y := some.inj (hz.symm.trans h)
  have hx' : x.resetTimestamps.Tight := hx
  constructor
  · rw [← settle_settle, ← entry_resetTimestamps, ← entry_compact hx']
    funext u
    unfold entry
    rw [hinit, hins, hrem]
  · intro w hw
    rw [hinit]
    exact tight_compact hx' w (hrem ▸ hw)

theorem entry_apply {op : VertexOp} (hx : x.Tight) (hs : x.Sound op) (h : x.apply op = some y) :
    y.entry = x.entry.apply op ∧ y.Tight := by
  cases op with
  | init i m =>
    cases h
    exact ⟨entry_init hs, tight_init hx⟩
  | reserve k =>
    cases h
    exact ⟨entry_reserve hs, tight_reserve hx⟩
  | insert v ts =>
    obtain ⟨⟨z, r⟩, hz, rfl⟩ := map_eq_some_iff.mp h
    exact ⟨entry_insertVertex hs hz, tight_insertVertex hx hs hz⟩
  | remove v =>
    cases h
    exact ⟨entry_removeVertex, tight_removeVertex hx⟩
  | revertRemove v ts =>
    obtain ⟨⟨z, r⟩, hz, rfl⟩ := map_eq_some_iff.mp h
    exact ⟨entry_revertRemoveVertex hs hz, tight_revertRemoveVertex hx hz⟩
  | compact =>
    cases h
    exact ⟨entry_compact hx, tight_compact hx⟩
  | dumpOpen => exact entry_dumpOpen hx h

theorem entry_of_reach {f : ValidityMap}
    (h : Reach VertexInitial vertexStep (fun s op => s.1.Sound op) (x, f)) :
    x.entry = f ∧ x.Tight := by
  refine h.invariant (J := fun s => s.1.entry = s.2 ∧ s.1.Tight)
    (fun _ _ => trivial) ?_ ?_
  · rintro s rfl
    refine ⟨?_, fun w hw => by simp [empty, removedSet] at hw⟩
    funext u
    exact entry_of_max_le (Nat.zero_le u)
  · rintro ⟨x, f⟩ op s' - ⟨hf, hx⟩ hs hstep
    obtain ⟨y, hy, rfl⟩ := map_eq_some_iff.mp hstep
    obtain ⟨hentry, hy'⟩ := entry_apply hx hs hy
    exact ⟨hentry.trans (congrArg (ValidityMap.apply · op) hf), hy'⟩

theorem apply_of_ne_target {f : ValidityMap} {op : VertexOp} (hop : op.target = some v)
    (hu : u ≠ v) : f.apply op u = f u := by
  cases op <;> simp only [VertexOp.target, some.injEq, reduceCtorEq] at hop
  all_goals subst hop
  all_goals simp [ValidityMap.apply, ValidityMap.insert]
  · split_ifs
    · exact if_neg hu
    · rfl
  · exact if_neg hu
  · exact if_neg hu

/-- In every run of sound calls `IsVertexValid` answers what the map says, and a call about
one vertex changes the answer for no other. -/
theorem isVertexValid_refines {f : ValidityMap}
    (h : Reach VertexInitial vertexStep (fun s op => s.1.Sound op) (x, f)) :
    (∀ u t, u ≠ x.maxVertexNum → t < deletedTimestamp →
      x.isVertexValid u t = some (f.validAt u t)) ∧
    ∀ op v y, op.target = some v → x.Sound op → x.apply op = some y →
      ∀ u t, u ≠ v → u ≠ x.maxVertexNum → u ≠ y.maxVertexNum → t < deletedTimestamp →
        y.isVertexValid u t = x.isVertexValid u t := by
  obtain ⟨rfl, hx⟩ := entry_of_reach h
  refine ⟨fun u t hu ht => isVertexValid_eq hu ht, ?_⟩
  intro op v y hop hs hy u t huv hux huy ht
  rw [isVertexValid_eq huy ht, isVertexValid_eq hux ht, (entry_apply hx hs hy).1]
  unfold ValidityMap.validAt
  rw [apply_of_ne_target hop huv]

def mixedCalls : List VertexOp :=
  [.init 2 3, .insert 2 5, .remove 0, .compact, .reserve 6, .insert 4 9, .remove 4,
    .revertRemove 4 9, .dumpOpen, .remove 1]

theorem isVertexValid_refines_mixedCalls : ∃ s : VertexTimestamp × ValidityMap,
      (s.2.validAt 2 0 = true ∧ s.2.validAt 0 9 = false ∧ s.1.maxVertexNum = 6) ∧
      s.1.isVertexValid 2 0 = some true ∧ s.1.isVertexValid 0 9 = some false := by
  have hstart : Reach VertexInitial vertexStep (fun s op => s.1.Sound op)
    (VertexTimestamp.empty, fun _ => none) := .init rfl
  obtain ⟨s, hreach, h2, h0, hmax⟩ := hstart.exists_of_execute mixedCalls
    (fun s => s.2.validAt 2 0 = true ∧ s.2.validAt 0 9 = false ∧ s.1.maxVertexNum = 6)
    (by decide +kernel)
  have hvalid := (isVertexValid_refines hreach).1
  refine ⟨s, ⟨h2, h0, hmax⟩, ?_, ?_⟩
  · rw [hvalid 2 0 (by omega) (by decide), h2]
  · rw [hvalid 0 9 (by omega) (by decide), h0]

/-- Bringing back a removed vertex of the initial prefix: the array is enlarged at its end
while its start moves down, so the entries slide to other vertices; and with timestamp 0
nothing happens at all. -/
theorem insertVertex_below_init : (∃ s, Reach VertexInitial vertexStep anyStep s ∧
      s.1.isVertexValid 1 10 = some false ∧ s.2.validAt 1 10 = true) ∧
    ∃ s, Reach VertexInitial vertexStep anyStep s ∧
      s.1.isVertexValid 0 10 = some false ∧ s.2.validAt 0 10 = true := by
  have hstart : Reach VertexInitial vertexStep anyStep
    (VertexTimestamp.empty, fun _ => none) := .init rfl
  constructor
  · exact hstart.exists_of_execute [.init 2 3, .insert 2 5, .remove 0, .insert 0 7] _
      (by decide +kernel)
  · exact hstart.exists_of_execute [.init 2 3, .remove 0, .insert 0 0] _ (by decide +kernel)

end VertexTimestamp

end Neug.Storage
