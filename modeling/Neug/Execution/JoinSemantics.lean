import Neug.Execution.Join

/-! When the joins return what the relational joins do. -/
namespace Neug.Execution
open Neug.Lib List Option

namespace JoinInput

variable (x : JoinInput)

def LeftNonNull (i : ℕ) : Prop := (x.leftKey i).any Value.isNull = false
def RightNonNull (j : ℕ) : Prop := (x.rightKey j).any Value.isNull = false
def Partners (i j : ℕ) : Prop := x.leftKey i = x.rightKey j ∧ x.LeftNonNull i

open Classical in
noncomputable def partners (i : ℕ) : List ℕ :=
  (List.range x.right.rowNum).filter fun j => x.Partners i j

noncomputable def relationalPairs : JoinKind → List (ℕ × Option ℕ)
  | .semi => ((List.range x.left.rowNum).filter fun i => !(x.partners i).isEmpty).map (·, none)
  | .anti => ((List.range x.left.rowNum).filter fun i => (x.partners i).isEmpty).map (·, none)
  | .inner => (List.range x.left.rowNum).flatMap fun i => plain i (x.partners i)
  | .leftOuter => (List.range x.left.rowNum).flatMap fun i => padded i (x.partners i)
  | .times => (List.range x.left.rowNum).flatMap fun i => plain i (List.range x.right.rowNum)

def leftColumn (pairs : List (ℕ × Option ℕ)) (a : ℕ) : Option (List Value) :=
  (getSlot x.left.columns a).map fun c => pairs.map fun p => c.elem p.1

def rightColumn (pairs : List (ℕ × Option ℕ)) (a : ℕ) : Option (List Value) :=
  (getSlot x.right.columns a).map fun c => pairs.map fun p => p.2.elim .null c.elem

/-- Semi and anti joins have the columns of the left context. The others have all columns, the left
one where both contexts have one under an alias. -/
def relationalColumn (kind : JoinKind) (pairs : List (ℕ × Option ℕ)) (a : ℕ) :
    Option (List Value) :=
  if kind = .semi ∨ kind = .anti then x.leftColumn pairs a
  else (x.leftColumn pairs a).orElse fun _ => x.rightColumn pairs a

def IsRelational (kind : JoinKind) : Prop :=
  ∃ out, x.join kind = some out ∧ out.pairs.Perm (x.relationalPairs kind) ∧
    ∀ a, getSlot out.columns a = x.relationalColumn kind out.pairs a

def VerticesFit : Prop :=
  ∀ i < x.left.rowNum, ∀ j < x.right.rowNum, x.leftRecords i = x.rightRecords j → x.LeftNonNull i

/-- No left row is written like a right row unless some right row has its key, and in an anti join
no left key is null. -/
def SemiFit (kind : JoinKind) : Prop :=
  (kind = .anti → ∀ i < x.left.rowNum, x.LeftNonNull i) ∧
    ∀ i < x.left.rowNum, x.LeftNonNull i → ∀ j < x.right.rowNum,
      encodeRowHash (x.leftKey i) = encodeRowHash (x.rightKey j) →
        ∃ j' < x.right.rowNum, x.leftKey i = x.rightKey j'

def InnerFit : Prop :=
  ∀ i < x.left.rowNum, ∀ j < x.right.rowNum, x.LeftNonNull i → x.RightNonNull j →
    encodeRowHash (x.leftKey i) = encodeRowHash (x.rightKey j) → x.leftKey i = x.rightKey j

def Pads (removed : ℕ → Bool) : Prop :=
  ∀ a c, getSlot x.right.columns a = some c → removed a = false → ∀ takesRow : Bool,
    (takesRow = true ↔ ∃ i < x.left.rowNum, ∃ j < x.right.rowNum, x.Partners i j) →
      c.canPad takesRow = true

def KeysKept : Prop := ∀ t ∈ x.keys, (getSlot x.left.columns t.2).isSome = true

/-- No right row behind the last `vid_t` belongs to a left row. -/
def Narrow : Prop := ∀ i < x.left.rowNum, ∀ j < x.right.rowNum, x.Partners i j → j < 2 ^ 32

/-- No alias but those of `removed` is in use on both sides. -/
def Unshared (removed : ℕ → Bool) : Prop :=
  ∀ a, removed a = false →
    getSlot x.left.columns a = none ∨ getSlot x.right.columns a = none

def DefaultOuterFit : Prop :=
  (∀ i < x.left.rowNum, ∀ j < x.right.rowNum,
    encodeRowHash (x.leftKey i) = encodeRowHash (x.rightKey j) → x.Partners i j) ∧
  x.Narrow ∧ x.Unshared (fun a => a ∈ x.keys.map Prod.snd) ∧
  x.Pads fun a => a ∈ x.keys.map Prod.snd

def VertexOuterFit (removed : ℕ → Bool) : Prop :=
  x.VerticesFit ∧ (x.right.rowNum ≤ x.left.rowNum → x.Narrow) ∧ x.Pads removed

def Fits : JoinKind → Prop
  | .inner => match x.keys with
    | [t₀] => if x.rightVertex t₀ then x.leftVertex t₀ ∧ x.VerticesFit else x.InnerFit
    | [t₀, t₁] =>
      if x.rightVertex t₀ ∧ x.rightVertex t₁ then
        (x.leftVertex t₀ ∧ (x.left.rowNum = 0 ∨ x.leftVertex t₁)) ∧ x.VerticesFit
      else x.InnerFit
    | _ => x.InnerFit
  | .leftOuter => x.KeysKept ∧ match x.keys with
    | [t₀] =>
      if x.rightVertex t₀ then
        x.leftVertex t₀ ∧
          x.VertexOuterFit fun a => a = t₀.2 || (getSlot x.left.columns a).isSome
      else x.DefaultOuterFit
    | [t₀, t₁] =>
      if x.rightVertex t₀ ∧ x.rightVertex t₁ then
        (x.leftVertex t₀ ∧ (x.left.rowNum = 0 ∨ x.leftVertex t₁)) ∧
          x.VertexOuterFit fun a => a = t₀.2 || a = t₁.2
      else x.DefaultOuterFit
    | _ => x.DefaultOuterFit
  | .times => x.Unshared fun _ => false
  | kind => match x.keys with
    | [t₀, t₁] =>
      if x.leftVertex t₀ ∧ x.leftVertex t₁ then
        (x.right.rowNum = 0 ∨ x.rightVertex t₀ ∧ x.rightVertex t₁) ∧ x.VerticesFit
      else x.SemiFit kind
    | _ => x.SemiFit kind

section

variable {x} {pairs : List (ℕ × Option ℕ)}

theorem getSlot_map {α β : Type} (f : α → β) (slots : List (Option α)) (a : ℕ) :
    getSlot (slots.map (Option.map f)) a = (getSlot slots a).map f := by
  unfold getSlot
  rw [getElem?_map]
  cases slots[a]? <;> rfl

theorem getSlot_leftColumns (a : ℕ) : getSlot (x.leftColumns pairs) a = x.leftColumn pairs a := by
  unfold leftColumns leftColumn
  rw [getSlot_map]
  simp [JoinColumn.shuffle, Function.comp_def]

theorem getSlot_rightColumns (hpairs : ∀ p ∈ pairs, p.2.isSome = true) (a : ℕ) :
    getSlot (x.rightColumns pairs) a = x.rightColumn pairs a := by
  unfold rightColumns rightColumn
  rw [getSlot_map]
  congr 1
  funext c
  unfold JoinColumn.shuffle
  induction pairs with
  | nil => rfl
  | cons p pairs ih =>
    obtain ⟨j, hj⟩ := isSome_iff_exists.mp (hpairs p mem_cons_self)
    rw [filterMap_cons_some hj, map_cons, map_cons, hj,
      ih fun q hq => hpairs q (mem_cons_of_mem p hq)]
    rfl

/-- Columns that are set in free slots only stand beside those of the left context. -/
theorem combine_eq (accept : Option (List Value) → Option (List Value) → Bool)
    (hpairs : ∀ p ∈ pairs, p.2.isSome = true)
    (hfree : ∀ a, accept (x.leftColumn pairs a) (x.rightColumn pairs a) = true →
      x.leftColumn pairs a = none)
    (htakes : ∀ a, x.rightColumn pairs a ≠ none → accept none (x.rightColumn pairs a) = true) :
    ∃ out, x.combine accept pairs = some out ∧ out.pairs = pairs ∧
      ∀ a, getSlot out.columns a =
        (x.leftColumn pairs a).orElse fun _ => x.rightColumn pairs a := by
  obtain ⟨ret, hret, hleft⟩ := mergeSlots_orElse (fun _ _ => true) [] (x.leftColumns pairs)
    (fun _ _ => rfl) fun _ _ _ => rfl
  have hleft' : getSlot ret = x.leftColumn pairs :=
    funext fun a => (hleft a).trans (getSlot_leftColumns a)
  rw [← funext (getSlot_rightColumns hpairs), ← hleft'] at hfree
  rw [← funext (getSlot_rightColumns hpairs)] at htakes
  obtain ⟨out, hout, hslots⟩ := mergeSlots_orElse accept ret _ hfree fun a _ => htakes a
  rw [← funext (getSlot_rightColumns hpairs), ← hleft']
  exact ⟨⟨pairs, out⟩, by rw [combine, hret, bind_some, hout]; rfl, rfl, hslots⟩

variable {a : ℕ}

theorem combine_eq_none (accept : Option (List Value) → Option (List Value) → Bool)
    (hpairs : ∀ p ∈ pairs, p.2.isSome = true)
    (hacc : accept (x.leftColumn pairs a) (x.rightColumn pairs a) = true)
    (hl : x.leftColumn pairs a ≠ none) (hr : x.rightColumn pairs a ≠ none) :
    x.combine accept pairs = none := by
  obtain ⟨ret, hret, hleft⟩ := mergeSlots_orElse (fun _ _ => true) [] (x.leftColumns pairs)
    (fun _ _ => rfl) fun _ _ _ => rfl
  have hleft' : getSlot ret a = x.leftColumn pairs a := (hleft a).trans (getSlot_leftColumns a)
  rw [← getSlot_rightColumns hpairs] at hr hacc
  rw [← hleft'] at hl hacc
  rw [combine, hret, bind_some, mergeSlots_eq_none hr hacc hl]
  rfl

def PadsAt (x : JoinInput) (removed : ℕ → Bool) (pairs : List (ℕ × Option ℕ)) : Prop :=
  ∀ a c, getSlot x.right.columns a = some c → removed a = false →
    c.canPad (pairs.any fun p => p.2.isSome) = true

theorem optionalColumns_eq {removed : ℕ → Bool} (hpads : x.PadsAt removed pairs) :
    ∃ cols, x.optionalColumns removed pairs = some cols ∧
      ∀ a, getSlot cols a = if removed a then none else x.rightColumn pairs a := by
  refine ⟨x.right.columns.zipIdx.map fun c => if removed c.2 then none else
    c.1.map fun col => pairs.map fun p => p.2.elim .null col.elem, ?_, ?_⟩
  · apply mapM_eq_some_map
    rintro ⟨c, a⟩ hc
    have hslot : getSlot x.right.columns a = c := by
      rw [mem_zipIdx_iff_getElem?] at hc
      simp [getSlot, hc]
    cases hrem : removed a with
    | true => simp
    | false =>
      cases c with
      | none => simp
      | some col =>
        have hpad := hpads a col hslot hrem
        simp [JoinColumn.optionalShuffle, hpad, Function.comp_def]
  · intro a
    unfold getSlot rightColumn getSlot
    rw [getElem?_map, getElem?_zipIdx]
    cases hcol : x.right.columns[a]? with
    | none => simp
    | some c => by_cases hrem : removed a = true <;> simp

theorem optionalColumns_eq_none {removed : ℕ → Bool} (hpads : ¬ x.PadsAt removed pairs) :
    x.optionalColumns removed pairs = none := by
  unfold PadsAt at hpads
  push Not at hpads
  obtain ⟨a, c, hslot, hrem, hpad⟩ := hpads
  have hmem : (some c, a) ∈ x.right.columns.zipIdx := by
    rw [mem_zipIdx_iff_getElem?]
    exact join_eq_some_iff.mp hslot
  apply mapM_eq_none hmem
  simp [hrem, JoinColumn.optionalShuffle, hpad, Function.comp_def]

def Assembles (x : JoinInput) (result : Option Joined) (pairs : List (ℕ × Option ℕ)) : Prop :=
  ∃ out, result = some out ∧ out.pairs = pairs ∧
    ∀ a, getSlot out.columns a = (x.leftColumn pairs a).orElse fun _ => x.rightColumn pairs a

theorem leftColumn_eq_none : x.leftColumn pairs a = none ↔ getSlot x.left.columns a = none := by
  simp [leftColumn]

theorem rightColumn_eq_none : x.rightColumn pairs a = none ↔ getSlot x.right.columns a = none := by
  simp [rightColumn]

theorem assembles_times_iff (hpairs : ∀ p ∈ pairs, p.2.isSome = true) :
    x.Assembles (x.combine (fun _ r => r.isSome) pairs) pairs ↔ x.Unshared fun _ => false := by
  constructor
  · rintro ⟨out, hout, -⟩ a _
    by_contra! hboth
    have hr : x.rightColumn pairs a ≠ none := mt rightColumn_eq_none.mp hboth.2
    have hnone := combine_eq_none (fun _ r => r.isSome) hpairs
      (isSome_iff_ne_none.mpr hr) (mt leftColumn_eq_none.mp hboth.1) hr
    rw [hout] at hnone
    cases hnone
  · intro h
    apply combine_eq _ hpairs
    · intro a hacc
      have hr : x.rightColumn pairs a ≠ none := isSome_iff_ne_none.mp hacc
      exact leftColumn_eq_none.mpr ((h a rfl).resolve_right (mt rightColumn_eq_none.mpr hr))
    · intro a hr
      exact isSome_iff_ne_none.mpr hr

section

variable {removed : ℕ → Bool} {accept : Option (List Value) → Option (List Value) → Bool}
  {out : Joined}

theorem pairs_of_merge {α : Type} {o : Option α} {f : α → Option (List (Option (List Value)))}
    (h : (o.bind fun a => (f a).map fun columns => ⟨pairs, columns⟩) = some out) :
    out.pairs = pairs := by
  obtain ⟨a, -, h⟩ := bind_eq_some_iff.mp h
  obtain ⟨columns, -, rfl⟩ := map_eq_some_iff.mp h
  rfl

def restColumn (x : JoinInput) (removed : ℕ → Bool) (pairs : List (ℕ × Option ℕ)) (a : ℕ) :
    Option (List Value) :=
  if removed a then none else x.rightColumn pairs a

theorem extend_eq (accept : Option (List Value) → Option (List Value) → Bool)
    (hpads : x.PadsAt removed pairs)
    (hfree : ∀ a, accept (x.leftColumn pairs a) (x.restColumn removed pairs a) = true →
      x.leftColumn pairs a = none) (htakes : ∀ a, x.restColumn removed pairs a ≠ none →
      accept none (x.restColumn removed pairs a) = true) :
    ∃ out, x.extend removed accept pairs = some out ∧ out.pairs = pairs ∧
      ∀ a, getSlot out.columns a =
        (x.leftColumn pairs a).orElse fun _ => x.restColumn removed pairs a := by
  obtain ⟨cols, hcols, hrest⟩ := optionalColumns_eq hpads
  have hrest' : getSlot cols = x.restColumn removed pairs := funext hrest
  simp only [← getSlot_leftColumns, ← hrest'] at hfree htakes ⊢
  obtain ⟨out, hout, hslots⟩ := mergeSlots_orElse accept _ cols hfree fun a _ => htakes a
  exact ⟨⟨pairs, out⟩, by rw [extend, hcols, bind_some, hout]; rfl, rfl, hslots⟩

theorem padsAt_of_extend (h : x.extend removed accept pairs = some out) :
    x.PadsAt removed pairs := by
  by_contra hpads
  rw [extend, optionalColumns_eq_none hpads] at h
  cases h

def Covered (x : JoinInput) (removed : ℕ → Bool) : Prop :=
  ∀ a, removed a = true → getSlot x.right.columns a ≠ none → getSlot x.left.columns a ≠ none

theorem orElse_rest_iff : (∀ a, ((x.leftColumn pairs a).orElse fun _ =>
    x.restColumn removed pairs a) = (x.leftColumn pairs a).orElse fun _ =>
    x.rightColumn pairs a) ↔ x.Covered removed := by
  constructor
  · intro h a hrem hr hl
    have ha := h a
    rw [leftColumn_eq_none.mpr hl, restColumn, if_pos hrem] at ha
    exact mt rightColumn_eq_none.mp hr ha.symm
  · intro h a
    cases hl : x.leftColumn pairs a with
    | some c => rfl
    | none =>
      rw [restColumn]
      split_ifs with hrem
      · by_contra hne
        exact h a hrem (mt rightColumn_eq_none.mpr (Ne.symm hne)) (leftColumn_eq_none.mp hl)
      · rfl

theorem assembles_vertexOuter_iff :
    x.Assembles (x.extend removed (fun l r => r.isSome && l.isNone) pairs) pairs ↔
      x.PadsAt removed pairs ∧ x.Covered removed := by
  have hext : x.PadsAt removed pairs → _ := fun hpads =>
    extend_eq (fun l r => r.isSome && l.isNone) hpads
      (fun a hacc => isNone_iff_eq_none.mp (Bool.and_eq_true_iff.mp hacc).2)
      (fun a hr => by simpa using isSome_iff_ne_none.mpr hr)
  constructor
  · rintro ⟨out, hout, -, hcols⟩
    have hpads := padsAt_of_extend hout
    obtain ⟨out', hout', -, hcols'⟩ := hext hpads
    rw [hout, some.injEq] at hout'
    subst hout'
    exact ⟨hpads, orElse_rest_iff.mp fun a => (hcols' a).symm.trans (hcols a)⟩
  · rintro ⟨hpads, hcov⟩
    obtain ⟨out, hout, hpairs, hcols⟩ := hext hpads
    exact ⟨out, hout, hpairs, fun a => (hcols a).trans (orElse_rest_iff.mpr hcov a)⟩

/-- The default variant sets all columns that are left, and throws if one stands there. -/
theorem assembles_defaultOuter_iff :
    x.Assembles (x.extend removed (fun l r => r.isSome || l.isNone) pairs) pairs ↔
      x.PadsAt removed pairs ∧ x.Covered removed ∧ x.Unshared removed := by
  have hext : x.PadsAt removed pairs → x.Unshared removed → _ := fun hpads hun =>
    extend_eq (fun l r => r.isSome || l.isNone) hpads (by
        intro a hacc
        by_contra hl
        have hr : x.restColumn removed pairs a ≠ none := by
          intro hr
          rw [hr] at hacc
          exact hl (isNone_iff_eq_none.mp (by simpa using hacc))
        unfold restColumn at hr
        split_ifs at hr with hrem
        · exact hr rfl
        · rcases hun a (Bool.eq_false_of_not_eq_true hrem) with h | h
          · exact hl (leftColumn_eq_none.mpr h)
          · exact hr (rightColumn_eq_none.mpr h))
      (fun a hr => by simp)
  constructor
  · rintro ⟨out, hout, -, hcols⟩
    have hpads := padsAt_of_extend hout
    have hun : x.Unshared removed := by
      intro a hrem
      by_contra! hboth
      obtain ⟨cols, hopt, hrest⟩ := optionalColumns_eq hpads
      have hr : getSlot cols a ≠ none := by
        rw [hrest a, if_neg (by simp [hrem])]
        exact mt rightColumn_eq_none.mp hboth.2
      have hl : getSlot (x.leftColumns pairs) a ≠ none := by
        rw [getSlot_leftColumns]
        exact mt leftColumn_eq_none.mp hboth.1
      have hacc : ((getSlot cols a).isSome || (getSlot (x.leftColumns pairs) a).isNone) = true := by
        rw [isSome_iff_ne_none.mpr hr, Bool.true_or]
      rw [extend, hopt, bind_some, mergeSlots_eq_none hr hacc hl] at hout
      cases hout
    obtain ⟨out', hout', -, hcols'⟩ := hext hpads hun
    rw [hout, some.injEq] at hout'
    subst hout'
    exact ⟨hpads, orElse_rest_iff.mp fun a => (hcols' a).symm.trans (hcols a), hun⟩
  · rintro ⟨hpads, hcov, hun⟩
    obtain ⟨out, hout, hpairs, hcols⟩ := hext hpads hun
    exact ⟨out, hout, hpairs, fun a => (hcols a).trans (orElse_rest_iff.mpr hcov a)⟩

end

end

section

variable {x}

theorem elem_eq_of_isVertex {c : Option JoinColumn}
    (hc : (c.map JoinColumn.isVertex).getD false = true) (i : ℕ) :
    (c.map fun c => c.elem i).getD .null =
      ((c.bind fun c => c.record i).map VertexRecord.elem).getD .null := by
  cases c with
  | none => rfl
  | some c =>
    cases c with
    | vertices records => simp [JoinColumn.elem, JoinColumn.record]
    | values kind elems => simp [JoinColumn.isVertex] at hc

theorem leftKey_eq (hv : ∀ t ∈ x.keys, x.leftVertex t = true) (i : ℕ) :
    x.leftKey i = (x.leftRecords i).map fun r => (r.map VertexRecord.elem).getD .null := by
  unfold leftKey leftRecords
  rw [List.map_map]
  exact map_congr_left fun t ht => elem_eq_of_isVertex (hv t ht) i

theorem rightKey_eq (hv : ∀ t ∈ x.keys, x.rightVertex t = true) (j : ℕ) :
    x.rightKey j = (x.rightRecords j).map fun r => (r.map VertexRecord.elem).getD .null := by
  unfold rightKey rightRecords
  rw [List.map_map]
  exact map_congr_left fun t ht => elem_eq_of_isVertex (hv t ht) j

theorem record_eq_of_elem {r r' : Option VertexRecord}
    (h : (r.map VertexRecord.elem).getD .null = (r'.map VertexRecord.elem).getD .null)
    (hnull : ((r.map VertexRecord.elem).getD .null).isNull = false) : r = r' := by
  cases r with
  | none => simp [Value.isNull] at hnull
  | some v =>
    by_cases hv : v.IsNull
    · simp [VertexRecord.elem, hv, Value.isNull] at hnull
    · cases r' with
      | none => simp [VertexRecord.elem, hv] at h
      | some v' =>
        by_cases hv' : v'.IsNull
        · simp [VertexRecord.elem, hv, hv'] at h
        · simpa [VertexRecord.elem, hv, hv'] using h

/-- Rows with vertex keys belong together if their records agree and are not null. -/
theorem partners_iff_records (hl : ∀ t ∈ x.keys, x.leftVertex t = true)
    (hr : ∀ t ∈ x.keys, x.rightVertex t = true) (i j : ℕ) :
    x.Partners i j ↔ x.leftRecords i = x.rightRecords j ∧ x.LeftNonNull i := by
  unfold Partners LeftNonNull
  apply and_congr_left
  intro hnull
  rw [leftKey_eq hl] at hnull ⊢
  rw [rightKey_eq hr]
  constructor
  · intro h
    have hlen : (x.leftRecords i).length = (x.rightRecords j).length := by
      simp [leftRecords, rightRecords]
    apply ext_getElem hlen
    intro k hk hk'
    have hkey := getElem_of_eq h (by simpa using hk)
    simp only [getElem_map] at hkey
    apply record_eq_of_elem hkey
    simp only [List.any_map, List.any_eq_false] at hnull
    exact Bool.eq_false_of_not_eq_true (hnull _ (getElem_mem hk))
  · intro h
    rw [h]

theorem recordsAgree_iff (hl : ∀ t ∈ x.keys, x.leftVertex t = true)
    (hr : 0 < x.right.rowNum → ∀ t ∈ x.keys, x.rightVertex t = true) (i : ℕ) :
    ((range x.right.rowNum).filter fun j => x.leftRecords i = x.rightRecords j).Perm
        (x.partners i) ↔
      ∀ j < x.right.rowNum, x.leftRecords i = x.rightRecords j → x.LeftNonNull i := by
  unfold partners
  rw [filter_range_perm_iff]
  apply forall₂_congr
  intro j hj
  rw [decide_eq_decide, partners_iff_records hl (hr (by omega))]
  tauto

variable (hl : 0 < x.left.rowNum → ∀ t ∈ x.keys, x.leftVertex t = true)
  (hr : 0 < x.right.rowNum → ∀ t ∈ x.keys, x.rightVertex t = true)

section

include hl hr

theorem vertexInner_perm_iff :
    (hashPairs x.leftRecords x.rightRecords x.left.rowNum x.right.rowNum).Perm
      (x.relationalPairs .inner) ↔ x.VerticesFit := by
  rw [hashPairs_perm.congr_left]
  unfold relationalPairs VerticesFit
  rw [flatMap_perm_iff (fun _ => fst_of_mem_plain) fun _ => fst_of_mem_plain]
  apply forall₂_congr
  intro i hi
  rw [plain_perm_iff]
  exact recordsAgree_iff (hl (by omega)) hr i

theorem vertexOuter_perm_iff : ((range x.left.rowNum).flatMap fun i =>
      padded i (x.vertexRightMap (x.leftRecords i))).Perm (x.relationalPairs .leftOuter) ↔
      x.VerticesFit ∧ (x.right.rowNum ≤ x.left.rowNum → x.Narrow) := by
  unfold relationalPairs VerticesFit Narrow
  rw [flatMap_perm_iff (fun _ => fst_of_mem_padded) fun _ => fst_of_mem_padded]
  by_cases hlt : x.left.rowNum < x.right.rowNum
  · rw [and_iff_left fun h => absurd hlt (not_lt.mpr h)]
    apply forall₂_congr
    intro i hi
    rw [padded_perm_iff]
    unfold vertexRightMap
    rw [if_pos hlt, sharedMap_apply hi]
    exact recordsAgree_iff (hl (by omega)) hr i
  · have hle := not_lt.mp hlt
    simp only [hle, true_imp_iff]
    rw [← forall₂_and]
    apply forall₂_congr
    intro i hi
    rw [padded_perm_iff]
    unfold vertexRightMap partners
    rw [if_neg hlt, buildMap_apply, map_mod_perm_iff]
    · rw [← forall₂_and]
      apply forall₂_congr
      intro j hj
      have hiff := partners_iff_records (hl (by omega)) (hr (by omega)) i j
      simp only [Bool.true_and, decide_eq_true_eq, hiff, Nat.mod_eq_iff_lt (by decide : 2 ^ 32 ≠ 0)]
      constructor
      · intro h
        exact ⟨fun he => (h he.symm).1.2, fun hp => (h hp.1.symm).2⟩
      · intro h he
        have hnn := h.1 he.symm
        exact ⟨⟨he.symm, hnn⟩, h.2 ⟨he.symm, hnn⟩⟩
    · intro j hj hp
      have hiff := partners_iff_records (hl (by omega)) (hr (by omega)) i j
      simp only [decide_eq_true_eq, hiff] at hp
      simpa using hp.1.symm

end

theorem isEmpty_partners_iff {i : ℕ} :
    (x.partners i).isEmpty = true ↔ ¬ ∃ j < x.right.rowNum, x.Partners i j := by
  rw [partners]
  simp

theorem not_partners {i : ℕ} (h : ¬ x.LeftNonNull i) : ¬ ∃ j < x.right.rowNum, x.Partners i j := by
  rintro ⟨j, -, hp⟩
  exact h hp.2

theorem Partners.bytes {i j : ℕ} (h : x.Partners i j) :
    encodeRowHash (x.leftKey i) = encodeRowHash (x.rightKey j) := by rw [h.1]

theorem defaultInner_perm_iff : ((range x.left.rowNum).flatMap fun i =>
      if (x.leftKey i).any Value.isNull then []
      else plain i (defaultInnerJoin.rightSet x (encodeRowHash (x.leftKey i)))).Perm
        (x.relationalPairs .inner) ↔ x.InnerFit := by
  have hfst : ∀ i, ∀ p ∈ (if (x.leftKey i).any Value.isNull then []
      else plain i (defaultInnerJoin.rightSet x (encodeRowHash (x.leftKey i)))), p.1 = i := by
    intro i p hp
    split_ifs at hp
    · cases hp
    · exact fst_of_mem_plain p hp
  unfold relationalPairs InnerFit
  rw [flatMap_perm_iff hfst fun _ => fst_of_mem_plain]
  apply forall₂_congr
  intro i hi
  by_cases hnull : x.LeftNonNull i
  · have hany : ¬ (x.leftKey i).any Value.isNull = true := by
      rw [hnull]
      exact Bool.false_ne_true
    unfold partners defaultInnerJoin.rightSet
    rw [if_neg hany, plain_perm_iff, buildMap_apply, filter_range_perm_iff]
    apply forall₂_congr
    intro j hj
    rw [Bool.eq_iff_iff]
    simp only [Bool.and_eq_true, Bool.not_eq_true', decide_eq_true_eq]
    constructor
    · intro h _ hrnull hbytes
      exact (h.mp ⟨hrnull, hbytes.symm⟩).1
    · intro h
      constructor
      · intro hb
        exact ⟨h hnull hb.1 hb.2.symm, hnull⟩
      · intro hp
        refine ⟨?_, hp.bytes.symm⟩
        rw [← hp.1]
        exact hnull
  · have hany : (x.leftKey i).any Value.isNull = true := Bool.eq_true_of_not_eq_false hnull
    have hnone : x.partners i = [] := isEmpty_iff.mp (isEmpty_partners_iff.mpr (not_partners hnull))
    rw [if_pos hany, hnone]
    exact iff_of_true (.refl _) fun j _ h => absurd h hnull

theorem defaultOuter_perm_iff : ((range x.left.rowNum).flatMap fun i =>
      padded i (defaultLeftOuterJoin.rightMap x (encodeRowHash (x.leftKey i)))).Perm
        (x.relationalPairs .leftOuter) ↔
      (∀ i < x.left.rowNum, ∀ j < x.right.rowNum,
        encodeRowHash (x.leftKey i) = encodeRowHash (x.rightKey j) → x.Partners i j) ∧
      x.Narrow := by
  unfold relationalPairs Narrow
  rw [flatMap_perm_iff (fun _ => fst_of_mem_padded) fun _ => fst_of_mem_padded, ← forall₂_and]
  apply forall₂_congr
  intro i hi
  unfold partners defaultLeftOuterJoin.rightMap
  rw [padded_perm_iff, buildMap_apply, map_mod_perm_iff, ← forall₂_and]
  · apply forall₂_congr
    intro j hj
    simp only [Bool.true_and, decide_eq_true_eq, Nat.mod_eq_iff_lt (by decide : 2 ^ 32 ≠ 0)]
    constructor
    · intro h
      exact ⟨fun hb => (h hb.symm).1, fun hp => (h hp.bytes.symm).2⟩
    · intro h hb
      exact ⟨h.1 hb.symm, h.2 (h.1 hb.symm)⟩
  · intro j hj hp
    simp only [decide_eq_true_eq] at hp
    simpa using hp.bytes.symm

theorem keep_perm_iff {P Q : ℕ → Bool} : (x.keep ((range x.left.rowNum).filter P)).pairs.Perm
        (((range x.left.rowNum).filter Q).map (·, none)) ↔
      ∀ i < x.left.rowNum, P i = Q i := by
  rw [← filter_range_perm_iff]
  exact map_perm_map_iff fun i i' h => (Prod.mk.inj h).1

variable {kind : JoinKind}

theorem keepsRow_iff (hkind : kind = .semi ∨ kind = .anti) {P : ℕ → Bool} :
    (x.keep ((range x.left.rowNum).filter P)).pairs.Perm (x.relationalPairs kind) ↔
      ∀ i < x.left.rowNum,
        (P i = true ↔ ((∃ j < x.right.rowNum, x.Partners i j) ↔ kind = .semi)) := by
  rcases hkind with rfl | rfl
  · unfold relationalPairs
    rw [keep_perm_iff]
    apply forall₂_congr
    intro i _
    rw [Bool.eq_iff_iff, Bool.not_eq_true', ← Bool.not_eq_true, isEmpty_partners_iff]
    simp
  · unfold relationalPairs
    rw [keep_perm_iff]
    apply forall₂_congr
    intro i _
    rw [Bool.eq_iff_iff, isEmpty_partners_iff]
    simp

theorem iff_of_iff_iff {a b k : Prop} (h : (a ↔ k) ↔ (b ↔ k)) : a ↔ b := by
  by_cases hk : k <;> by_cases ha : a <;> by_cases hb : b <;> simp_all

theorem defaultSemi_perm_iff (hkind : kind = .semi ∨ kind = .anti) :
    (x.keep ((range x.left.rowNum).filter fun i => !(x.leftKey i).any Value.isNull &&
        (decide (encodeRowHash (x.leftKey i) ∈ defaultSemiJoin.rightSet x) ==
          decide (kind = .semi)))).pairs.Perm (x.relationalPairs kind) ↔ x.SemiFit kind := by
  rw [keepsRow_iff hkind]
  have hmem : ∀ i, encodeRowHash (x.leftKey i) ∈ defaultSemiJoin.rightSet x ↔
      ∃ j < x.right.rowNum, encodeRowHash (x.leftKey i) = encodeRowHash (x.rightKey j) := by
    simp [defaultSemiJoin.rightSet, eq_comm]
  have hpartner : ∀ i, (∃ j < x.right.rowNum, x.Partners i j) →
      encodeRowHash (x.leftKey i) ∈ defaultSemiJoin.rightSet x := by
    rintro i ⟨j, hj, hp⟩
    exact (hmem i).mpr ⟨j, hj, hp.bytes⟩
  simp only [Bool.and_eq_true, Bool.not_eq_true', beq_iff_eq, decide_eq_decide]
  constructor
  · intro h
    refine ⟨?_, ?_⟩
    · rintro rfl i hi
      by_contra hnull
      exact hnull ((h i hi).mpr (iff_of_false (not_partners hnull) (by simp))).1
    · intro i hi hnull j hj hbytes
      have hin := (hmem i).mpr ⟨j, hj, hbytes⟩
      have hi := h i hi
      by_contra hno
      have hnone : ¬ ∃ j < x.right.rowNum, x.Partners i j := by
        rintro ⟨j', hj', hp⟩
        exact hno ⟨j', hj', hp.1⟩
      rw [and_iff_right (show (x.leftKey i).any Value.isNull = false from hnull)] at hi
      exact hnone ((iff_of_iff_iff hi).mp hin)
  · rintro ⟨hanti, hbytes⟩ i hi
    by_cases hnull : x.LeftNonNull i
    · have hsame : encodeRowHash (x.leftKey i) ∈ defaultSemiJoin.rightSet x ↔
          ∃ j < x.right.rowNum, x.Partners i j := by
        refine ⟨fun hin => ?_, hpartner i⟩
        obtain ⟨j, hj, hb⟩ := (hmem i).mp hin
        obtain ⟨j', hj', heq⟩ := hbytes i hi hnull j hj hb
        exact ⟨j', hj', heq, hnull⟩
      rw [hsame]
      exact and_iff_right hnull
    · have hsemi : kind = .semi := hkind.resolve_right fun h => hnull (hanti h i hi)
      constructor
      · intro h
        exact absurd h.1 hnull
      · intro h
        exact absurd (h.mpr hsemi) (not_partners hnull)

include hr in
theorem dualSemi_perm_iff (hkind : kind = .semi ∨ kind = .anti)
    (hl : ∀ t ∈ x.keys, x.leftVertex t = true) : (x.keep ((range x.left.rowNum).filter fun i =>
      decide (x.leftRecords i ∈ (range x.right.rowNum).map x.rightRecords) ==
        decide (kind = .semi))).pairs.Perm (x.relationalPairs kind) ↔ x.VerticesFit := by
  rw [keepsRow_iff hkind]
  unfold VerticesFit
  apply forall₂_congr
  intro i hi
  have hmem : x.leftRecords i ∈ (range x.right.rowNum).map x.rightRecords ↔
      ∃ j < x.right.rowNum, x.leftRecords i = x.rightRecords j := by
    simp [eq_comm]
  have hpartner : (∃ j < x.right.rowNum, x.Partners i j) ↔
      ∃ j < x.right.rowNum, x.leftRecords i = x.rightRecords j ∧ x.LeftNonNull i := by
    apply exists_congr
    intro j
    apply and_congr_right
    intro hj
    exact partners_iff_records hl (hr (by omega)) i j
  rw [beq_iff_eq, decide_eq_decide, hmem, hpartner]
  constructor
  · intro h j hj he
    obtain ⟨j', -, -, hnull⟩ := (iff_of_iff_iff h).mp ⟨j, hj, he⟩
    exact hnull
  · intro h
    have hsame : (∃ j < x.right.rowNum, x.leftRecords i = x.rightRecords j) ↔
        ∃ j < x.right.rowNum, x.leftRecords i = x.rightRecords j ∧ x.LeftNonNull i := by
      constructor
      · rintro ⟨j, hj, he⟩
        exact ⟨j, hj, he, h j hj he⟩
      · rintro ⟨j, hj, he, -⟩
        exact ⟨j, hj, he⟩
    rw [hsame]

end

section

variable {x} {pairs : List (ℕ × Option ℕ)} {removed : ℕ → Bool} {kind : JoinKind}

/-- A join that is not a semi join is relational if its pairs are right and it assembles their
columns. -/
theorem isRelational_iff (hkind : ¬ (kind = .semi ∨ kind = .anti))
    {result : Option Joined} (hjoin : x.join kind = result)
    (hpairs : ∀ out, result = some out → out.pairs = pairs) :
    x.IsRelational kind ↔ x.Assembles result pairs ∧ pairs.Perm (x.relationalPairs kind) := by
  unfold IsRelational Assembles relationalColumn
  rw [hjoin]
  simp only [if_neg hkind]
  constructor
  · rintro ⟨out, hout, hperm, hcols⟩
    have heq := hpairs out hout
    rw [heq] at hperm hcols
    exact ⟨⟨out, hout, heq, hcols⟩, hperm⟩
  · rintro ⟨⟨out, hout, heq, hcols⟩, hperm⟩
    refine ⟨out, hout, ?_, ?_⟩
    · rwa [heq]
    · rwa [heq]

theorem isRelational_of_none (hjoin : x.join kind = none) : ¬ x.IsRelational kind := by
  rintro ⟨out, hout, -⟩
  rw [hjoin] at hout
  cases hout

theorem isRelational_keep_iff (hkind : kind = .semi ∨ kind = .anti)
    {offset : List ℕ} (hjoin : x.join kind = some (x.keep offset)) :
    x.IsRelational kind ↔ (x.keep offset).pairs.Perm (x.relationalPairs kind) := by
  unfold IsRelational relationalColumn
  rw [hjoin]
  simp only [if_pos hkind, some.injEq]
  constructor
  · rintro ⟨out, rfl, hperm, -⟩
    exact hperm
  · intro hperm
    exact ⟨_, rfl, hperm, fun a => getSlot_leftColumns a⟩

theorem isSome_of_perm_inner {f : ℕ → List ℕ} {n : ℕ}
    (h : pairs.Perm ((range n).flatMap fun i => plain i (f i))) :
    ∀ p ∈ pairs, p.2.isSome = true := by
  intro p hp
  obtain ⟨i, -, hp⟩ := mem_flatMap.mp (h.mem_iff.mp hp)
  obtain ⟨j, -, rfl⟩ := mem_map.mp hp
  rfl

theorem assembles_inner (hpairs : ∀ p ∈ pairs, p.2.isSome = true) :
    x.Assembles (x.combine (fun l _ => l.isNone) pairs) pairs :=
  combine_eq _ hpairs (fun _ h => isNone_iff_eq_none.mp h) fun _ _ => rfl

theorem isRelational_vertexInner (hl : 0 < x.left.rowNum → ∀ t ∈ x.keys, x.leftVertex t = true)
    (hr : 0 < x.right.rowNum → ∀ t ∈ x.keys, x.rightVertex t = true)
    (hjoin : x.join .inner = x.vertexInnerJoin) : x.IsRelational .inner ↔ x.VerticesFit := by
  have hbase := isRelational_iff (by decide) hjoin fun out h => pairs_of_merge h
  rw [hbase, ← vertexInner_perm_iff hl hr]
  exact and_iff_right (assembles_inner (isSome_of_perm_inner hashPairs_perm))

theorem isRelational_defaultInner (hjoin : x.join .inner = x.defaultInnerJoin) :
    x.IsRelational .inner ↔ x.InnerFit := by
  have hsome : ∀ p ∈ (range x.left.rowNum).flatMap fun i =>
      if (x.leftKey i).any Value.isNull then []
      else plain i (defaultInnerJoin.rightSet x (encodeRowHash (x.leftKey i))),
      p.2.isSome = true := by
    intro p hp
    obtain ⟨i, -, hp⟩ := mem_flatMap.mp hp
    split_ifs at hp
    · cases hp
    · obtain ⟨j, -, rfl⟩ := mem_map.mp hp
      rfl
  have hbase := isRelational_iff (by decide) hjoin fun out h => pairs_of_merge h
  rw [hbase, ← defaultInner_perm_iff]
  exact and_iff_right (assembles_inner hsome)

theorem isRelational_times : x.IsRelational .times ↔ x.Unshared fun _ => false := by
  have hbase := isRelational_iff (by decide) (show x.join .times = x.defaultTimesJoin from rfl)
    fun out h => pairs_of_merge h
  rw [hbase, ← assembles_times_iff (isSome_of_perm_inner (.refl _))]
  exact and_iff_left (.refl _)

theorem padsAt_iff
    (h : pairs.Perm (x.relationalPairs .leftOuter)) : x.PadsAt removed pairs ↔ x.Pads removed := by
  have hany : (pairs.any fun p => p.2.isSome) = true ↔
      ∃ i < x.left.rowNum, ∃ j < x.right.rowNum, x.Partners i j := by
    rw [List.any_eq_true]
    constructor
    · rintro ⟨p, hp, hsome⟩
      obtain ⟨i, hi, hp⟩ := mem_flatMap.mp (h.mem_iff.mp hp)
      unfold padded at hp
      split_ifs at hp with hempty
      · rw [mem_singleton.mp hp] at hsome
        cases hsome
      · obtain ⟨j, hj, rfl⟩ := mem_map.mp hp
        obtain ⟨hj, hpart⟩ := mem_filter.mp hj
        simp only [decide_eq_true_eq] at hpart
        exact ⟨i, mem_range.mp hi, j, mem_range.mp hj, hpart⟩
    · rintro ⟨i, hi, j, hj, hpart⟩
      have hmem : j ∈ x.partners i := mem_filter.mpr ⟨mem_range.mpr hj, by simpa using hpart⟩
      refine ⟨(i, some j), h.mem_iff.mpr (mem_flatMap.mpr ⟨i, mem_range.mpr hi, ?_⟩), rfl⟩
      unfold padded
      rw [if_neg fun hempty => by simp [isEmpty_iff.mp hempty] at hmem]
      exact mem_map_of_mem hmem
  constructor
  · intro hp a c hc hrem takesRow htakes
    have heq : takesRow = pairs.any fun p => p.2.isSome :=
      Bool.eq_iff_iff.mpr (htakes.trans hany.symm)
    rw [heq]
    exact hp a c hc hrem
  · intro hp a c hc hrem
    exact hp a c hc hrem _ hany

theorem isRelational_extend_iff {accept : Option (List Value) → Option (List Value) → Bool}
    {P Q : Prop} (hjoin : x.join .leftOuter = x.extend removed accept pairs)
    (hassembles : x.Assembles (x.extend removed accept pairs) pairs ↔ x.PadsAt removed pairs ∧ P)
    (hperm : pairs.Perm (x.relationalPairs .leftOuter) ↔ Q) :
    x.IsRelational .leftOuter ↔ P ∧ Q ∧ x.Pads removed := by
  rw [isRelational_iff (by decide) hjoin fun out h => pairs_of_merge h, hassembles, ← hperm]
  constructor
  · rintro ⟨⟨hpads, hp⟩, hq⟩
    exact ⟨hp, hq, (padsAt_iff hq).mp hpads⟩
  · rintro ⟨hp, hq, hpads⟩
    exact ⟨⟨(padsAt_iff hq).mpr hpads, hp⟩, hq⟩

theorem isRelational_vertexOuter (hl : 0 < x.left.rowNum → ∀ t ∈ x.keys, x.leftVertex t = true)
    (hr : 0 < x.right.rowNum → ∀ t ∈ x.keys, x.rightVertex t = true)
    (hjoin : x.join .leftOuter = x.vertexLeftOuterJoin removed) :
    x.IsRelational .leftOuter ↔ x.Covered removed ∧ x.VertexOuterFit removed := by
  rw [isRelational_extend_iff hjoin assembles_vertexOuter_iff (vertexOuter_perm_iff hl hr),
    and_assoc]
  rfl

theorem isRelational_defaultOuter (hjoin : x.join .leftOuter = x.defaultLeftOuterJoin) :
    x.IsRelational .leftOuter ↔
      x.Covered (fun a => a ∈ x.keys.map Prod.snd) ∧ x.DefaultOuterFit := by
  rw [isRelational_extend_iff hjoin assembles_defaultOuter_iff defaultOuter_perm_iff]
  unfold DefaultOuterFit
  tauto

/-- The key columns are the ones that matter among those that are removed. -/
theorem covered_iff (hremoved : ∀ a, removed a = true →
      (∃ t ∈ x.keys, t.2 = a) ∨ (getSlot x.left.columns a).isSome = true)
    (hkeys : ∀ t ∈ x.keys, removed t.2 = true) : x.Covered removed ↔ x.KeysKept := by
  constructor
  · intro h t ht
    exact isSome_iff_ne_none.mpr (h t.2 (hkeys t ht) (isSome_iff_ne_none.mp (x.right_isSome t ht)))
  · intro h a hrem _
    rcases hremoved a hrem with ⟨t, ht, rfl⟩ | hleft
    · exact isSome_iff_ne_none.mp (h t ht)
    · exact isSome_iff_ne_none.mp hleft

theorem isRelational_outer_default (hjoin : x.join .leftOuter = x.defaultLeftOuterJoin) :
    x.IsRelational .leftOuter ↔ x.KeysKept ∧ x.DefaultOuterFit := by
  have hcovered : x.Covered (fun a => a ∈ x.keys.map Prod.snd) ↔ x.KeysKept := by
    apply covered_iff
    · intro a ha
      obtain ⟨t, ht, rfl⟩ := mem_map.mp (of_decide_eq_true ha)
      exact .inl ⟨t, ht, rfl⟩
    · intro t ht
      exact decide_eq_true (mem_map_of_mem ht)
  rw [isRelational_defaultOuter hjoin, hcovered]

theorem leftVertex_of_dual {t₀ t₁ : ℕ × ℕ} (hk : x.keys = [t₀, t₁])
    (hl : x.leftVertex t₀ = true ∧ (x.left.rowNum = 0 ∨ x.leftVertex t₁ = true)) :
    0 < x.left.rowNum → ∀ t ∈ x.keys, x.leftVertex t = true := by
  intro hpos t ht
  have h1 := hl.2.resolve_left (by omega)
  simp only [hk, mem_cons, not_mem_nil, or_false] at ht
  rcases ht with rfl | rfl
  · exact hl.1
  · exact h1

/-- A variant that throws unless its guard holds. -/
theorem isRelational_guarded {guard P : Prop} [Decidable guard] {result : Option Joined}
    (hjoin : x.join kind = if guard then result else none)
    (h : guard → x.join kind = result → (x.IsRelational kind ↔ P)) :
    x.IsRelational kind ↔ guard ∧ P := by
  split_ifs at hjoin with hguard
  · rw [h hguard hjoin, and_iff_right hguard]
  · exact iff_of_false (isRelational_of_none hjoin) fun hp => hguard hp.1

theorem isRelational_inner_iff : x.IsRelational .inner ↔ x.Fits .inner := by
  unfold Fits
  rcases hk : x.keys with _ | ⟨t₀, _ | ⟨t₁, _ | ⟨t₂, rest⟩⟩⟩
  · exact isRelational_defaultInner (by simp [join, hk])
  · by_cases hr : x.rightVertex t₀ = true
    · simp only [if_pos hr]
      apply isRelational_guarded (by simp only [join, hk, if_pos hr]; rfl)
      intro hl
      exact isRelational_vertexInner (by simp [hk, hl]) (by simp [hk, hr])
    · simp only [if_neg hr]
      exact isRelational_defaultInner (by simp [join, hk, hr])
  · by_cases hr : x.rightVertex t₀ = true ∧ x.rightVertex t₁ = true
    · simp only [if_pos hr]
      apply isRelational_guarded (by simp only [join, hk, if_pos hr]; rfl)
      intro hl
      exact isRelational_vertexInner (leftVertex_of_dual hk hl) (by simp [hk, hr])
    · simp only [if_neg hr]
      exact isRelational_defaultInner (by simp [join, hk, if_neg hr])
  · exact isRelational_defaultInner (by simp [join, hk])

theorem isRelational_outer_iff : x.IsRelational .leftOuter ↔ x.Fits .leftOuter := by
  unfold Fits
  rcases hk : x.keys with _ | ⟨t₀, _ | ⟨t₁, _ | ⟨t₂, rest⟩⟩⟩
  · exact isRelational_outer_default (by simp [join, hk])
  · by_cases hr : x.rightVertex t₀ = true
    · simp only [if_pos hr]
      rw [and_left_comm]
      apply isRelational_guarded (by simp only [join, hk, if_pos hr]; rfl)
      intro hl hjoin
      rw [isRelational_vertexOuter (by simp [hk, hl]) (by simp [hk, hr]) hjoin, covered_iff]
      · intro a ha
        rcases Bool.or_eq_true_iff.mp ha with ha | ha
        · exact .inl ⟨t₀, by simp [hk], (of_decide_eq_true ha).symm⟩
        · exact .inr ha
      · simp [hk]
    · simp only [if_neg hr]
      exact isRelational_outer_default (by simp [join, hk, hr])
  · by_cases hr : x.rightVertex t₀ = true ∧ x.rightVertex t₁ = true
    · simp only [if_pos hr]
      rw [and_left_comm]
      apply isRelational_guarded (by simp only [join, hk, if_pos hr]; rfl)
      intro hl hjoin
      rw [isRelational_vertexOuter (leftVertex_of_dual hk hl) (by simp [hk, hr]) hjoin, covered_iff]
      · intro a ha
        rcases Bool.or_eq_true_iff.mp ha with ha | ha
        · exact .inl ⟨t₀, by simp [hk], (of_decide_eq_true ha).symm⟩
        · exact .inl ⟨t₁, by simp [hk], (of_decide_eq_true ha).symm⟩
      · simp [hk]
    · simp only [if_neg hr]
      exact isRelational_outer_default (by simp [join, hk, if_neg hr])
  · exact isRelational_outer_default (by simp [join, hk])

theorem isRelational_semi_iff (hkind : kind = .semi ∨ kind = .anti) :
    x.IsRelational kind ↔ x.Fits kind := by
  have hdefault : x.join kind = x.defaultSemiJoin kind →
      (x.IsRelational kind ↔ x.SemiFit kind) := by
    intro hjoin
    rw [isRelational_keep_iff hkind hjoin]
    exact defaultSemi_perm_iff hkind
  have hjoin : x.join kind = match x.keys with
      | [t₀, t₁] => if x.leftVertex t₀ ∧ x.leftVertex t₁ then x.dualVertexColumnSemiJoin kind t₀ t₁
        else x.defaultSemiJoin kind
      | _ => x.defaultSemiJoin kind := by
    rcases hkind with rfl | rfl <;> rfl
  have hfits : x.Fits kind = match x.keys with
      | [t₀, t₁] => if x.leftVertex t₀ ∧ x.leftVertex t₁ then
          (x.right.rowNum = 0 ∨ x.rightVertex t₀ ∧ x.rightVertex t₁) ∧ x.VerticesFit
        else x.SemiFit kind
      | _ => x.SemiFit kind := by
    rcases hkind with rfl | rfl <;> rfl
  rw [hfits]
  rcases hk : x.keys with _ | ⟨t₀, _ | ⟨t₁, _ | ⟨t₂, rest⟩⟩⟩
  · exact hdefault (by rw [hjoin]; simp [hk])
  · exact hdefault (by rw [hjoin]; simp [hk])
  · by_cases hl : x.leftVertex t₀ = true ∧ x.leftVertex t₁ = true
    · simp only [if_pos hl]
      apply isRelational_guarded (by rw [hjoin]; simp only [hk, if_pos hl]; rfl)
      intro hr hkeep
      have hright : 0 < x.right.rowNum → ∀ t ∈ x.keys, x.rightVertex t = true := by
        intro hpos
        have h := hr.resolve_left (by omega)
        simpa [hk] using h
      rw [isRelational_keep_iff hkind hkeep]
      exact dualSemi_perm_iff hright hkind (by simpa [hk] using hl)
    · rw [hdefault (by rw [hjoin]; simp [hk, if_neg hl])]
      simp [if_neg hl]
  · exact hdefault (by rw [hjoin]; simp [hk])

end

end JoinInput

/-- A left context with one row, null under the key and a value under another alias, and a right
context with the same aliases and as many rows as given. -/
def nullKeyInput (rightRows : ℕ) : JoinInput where
  left := ⟨[some (.values .pads [.null]), some (.values .pads [.int64 7])], 1,
    by simp [JoinColumn.size]⟩
  right := ⟨[some (.values .pads (List.replicate rightRows .null)),
    some (.values .pads (List.replicate rightRows (.int64 7)))], rightRows,
    by simp [JoinColumn.size]⟩
  keys := [(0, 0)]
  left_isSome := by simp [getSlot]
  right_isSome := by simp [getSlot]

end Neug.Execution
