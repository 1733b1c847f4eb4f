import Neug.Storage.StringColumn

/-! A string column represents a list of rows. What an item points at lies below the position where
the next value is written, so that later calls do not touch it. -/
namespace Neug.Storage
open Neug.Lib List Option

section

variable {str v : Str} {w : ℕ}

theorem truncateLoop_le {length fuel n k : ℕ} (h : truncateLoop str length fuel n = some k)
    (hn : n ≤ length) : k ≤ length := by
  induction fuel generalizing n with
  | zero => cases h
  | succ fuel ih =>
    rw [truncateLoop, bind_eq_some_iff] at h
    obtain ⟨ch, -, h⟩ := h
    split_ifs at h with hend hover
    · simp only [some.injEq] at h
      omega
    · simp only [some.injEq] at h
      omega
    · apply ih h
      omega

theorem truncateUtf8_of_le (h : str.length ≤ w) : truncateUtf8 str w = some str := if_pos h

theorem length_truncateUtf8 (h : truncateUtf8 str w = some v) : v.length ≤ w := by
  unfold truncateUtf8 at h
  split_ifs at h with hle
  · simp only [some.injEq] at h
    rwa [← h]
  · obtain ⟨n, hn, rfl⟩ := map_eq_some_iff.mp h
    have hnw := truncateLoop_le hn (Nat.zero_le w)
    simp only [length_take]
    omega

end

section

variable {α β : Type} {R : α → β → Prop} {xs : List α} {ys : List β} {a : α} {b : β}

theorem forall₂_set (h : Forall₂ R xs ys) (hab : R a b) (i : ℕ) :
    Forall₂ R (xs.set i a) (ys.set i b) := by
  induction h generalizing i with
  | nil => exact .nil
  | cons hxy hrest ih =>
    cases i with
    | zero => exact .cons hab hrest
    | succ i => exact .cons hxy (ih i)

theorem forall₂_replicate (hab : R a b) (n : ℕ) : Forall₂ R (replicate n a) (replicate n b) := by
  induction n with
  | zero => exact .nil
  | succ n ih => exact .cons hab ih

theorem forall₂_getElem? {f : α → Option β} (h : Forall₂ R xs ys)
    (hf : ∀ a b, R a b → f a = some b) (i : ℕ) : (xs[i]?).bind f = ys[i]? := by
  induction h generalizing i with
  | nil => rfl
  | cons hxy _ ih =>
    cases i with
    | zero => exact hf _ _ hxy
    | succ i => exact ih i

theorem forall₂_of_getElem? (h : Forall₂ R xs ys) {i : ℕ} (ha : xs[i]? = some a)
    (hb : ys[i]? = some b) : R a b := by
  induction h generalizing i with
  | nil => cases ha
  | cons hxy _ ih =>
    cases i with
    | zero =>
      cases ha
      cases hb
      exact hxy
    | succ i => exact ih ha hb

theorem forall₂_through {γ : Type} {S : α → γ → Prop} {T : β → γ → Prop} {zs : List γ}
    (hrel : ∀ a b c, R a b → S a c → T b c) (h : Forall₂ R xs ys) (h' : Forall₂ S xs zs) :
    Forall₂ T ys zs := by
  induction h generalizing zs with
  | nil =>
    cases h'
    exact .nil
  | cons hxy _ ih =>
    cases h' with
    | cons hxz hrest => exact .cons (hrel _ _ _ hxy hxz) (ih hrest)

end

def callRows (w : ℕ) (rows : List Str) : ColumnCall → List Str
  | .resize size => rows ++ List.replicate (size - rows.length) []
  | .resizeDefault size d =>
    rows ++ List.replicate (size - rows.length) ((truncateUtf8 d w).getD [])
  | .setAny i val => rows.set i ((truncateUtf8 val w).getD [])
  | .setValue i val => rows.set i ((truncateUtf8 val w).getD [])
  | .dumpOpen _ => rows

structure Holds (data : Str) (pos : ℕ) (item : StringItem) (x : Str) : Prop where
  below : item.offset + item.length ≤ pos
  short : item.length < 2 ^ 16
  view : slice data item.offset item.length = some x

structure Represents (w : ℕ) (c : StringColumn) (rows : List Str) : Prop where
  width : c.width = w
  data_lt : c.data.length < 2 ^ 47
  pos_lt : c.pos < 2 ^ 47
  rows : List.Forall₂ (Holds c.data c.pos) c.items rows

section

variable {w size i : ℕ} {c c' : StringColumn} {rows : List Str} {val d : Str}

theorem Represents.getView (h : Represents w c rows) (i : ℕ) : c.getView i = rows[i]? :=
  forall₂_getElem? h.rows (fun _ _ hx => hx.view) i

theorem resizeContainer_eq_some {α : Type} {zero : α} {k n : ℕ} {l l' : List α} :
    resizeContainer zero k n l = some l' ↔ k * n < 2 ^ 47 ∧ fit zero n l = l' := by
  unfold resizeContainer
  split_ifs with h
  · simp only [some.injEq, h, true_and]
  · simp only [h, false_and]

theorem Represents.resizeData (h : Represents w c rows) {n : ℕ} (hpos : c.pos ≤ n)
    (hn : n < 2 ^ 47) : Represents w { c with data := fit 0 n c.data } rows := by
  refine ⟨h.width, by simpa using hn, h.pos_lt, h.rows.imp fun item x hx => ?_⟩
  have hend := (slice_eq_some.mp hx.view).1
  refine ⟨hx.below, hx.short, ?_⟩
  have hsame := slice_fit 0 hend (hx.below.trans hpos)
  exact hsame.trans hx.view

theorem Represents.growItems (h : Represents w c rows) (hsize : c.items.length ≤ size) :
    Represents w { c with items := fit ⟨0, 0⟩ size c.items }
      (rows ++ replicate (size - rows.length) []) := by
  refine ⟨h.width, h.data_lt, h.pos_lt, ?_⟩
  have hlen := h.rows.length_eq
  simp only [fit, take_of_length_le hsize, hlen]
  apply rel_append
  · exact h.rows
  · apply forall₂_replicate
    exact ⟨Nat.zero_le _, by decide, by simp [slice]⟩

theorem Represents.resize (h : Represents w c rows) (hsize : c.items.length ≤ size)
    (hcall : c.resize size = some c') :
    Represents w c' (rows ++ replicate (size - rows.length) []) := by
  obtain ⟨items, hitems, hcall⟩ := bind_eq_some_iff.mp hcall
  obtain ⟨data, hdata, rfl⟩ := map_eq_some_iff.mp hcall
  obtain ⟨-, rfl⟩ := resizeContainer_eq_some.mp hitems
  obtain ⟨hlt, rfl⟩ := resizeContainer_eq_some.mp hdata
  apply (h.growItems hsize).resizeData
  · dsimp only
    by_cases hempty : c.items = []
    · rw [if_pos hempty]
      exact le_max_right _ _
    · rw [if_neg hempty]
      exact le_max_right _ _
  · rwa [one_mul] at hlt

theorem Represents.setValue (hw : w < 2 ^ 16) (h : Represents w c rows)
    (hcall : c.setValue i val = some c') : ∃ v, truncateUtf8 val w = some v ∧
      Represents w c' (rows.set i v) := by
  obtain ⟨v, hv, hcall⟩ := bind_eq_some_iff.mp hcall
  have hcut : truncateUtf8 val w = some v := by
    rw [h.width] at hv
    split_ifs at hv with hle
    · exact hv
    · rw [← hv]
      exact truncateUtf8_of_le (by omega)
  have hlen := length_truncateUtf8 hcut
  split_ifs at hcall with hspace
  cases hcall
  have hdata := h.data_lt
  have hpack : StringItem.pack c.pos v.length = ⟨c.pos, v.length⟩ := by
    unfold StringItem.pack
    rw [Nat.mod_eq_of_lt (by omega), Nat.mod_eq_of_lt (by omega)]
  refine ⟨v, hcut, h.width, ?_, ?_, ?_⟩
  · rw [length_overwrite hspace.2]
    exact hdata
  · dsimp only
    omega
  · apply forall₂_set
    · refine h.rows.imp fun item x hx => ⟨?_, hx.short, ?_⟩
      · exact hx.below.trans (Nat.le_add_right _ _)
      · exact (slice_overwrite_of_le hx.below hspace.2).trans hx.view
    · rw [hpack]
      exact ⟨le_rfl, by dsimp only; omega, slice_overwrite_self hspace.2⟩

theorem Represents.setAny (hw : w < 2 ^ 16) (h : Represents w c rows)
    (hcall : c.setAny i val = some c') : ∃ v, truncateUtf8 val w = some v ∧
      Represents w c' (rows.set i v) := by
  unfold StringColumn.setAny at hcall
  split_ifs at hcall with hi hspace
  · obtain ⟨data, hdata, hcall⟩ := bind_eq_some_iff.mp hcall
    obtain ⟨hlt, rfl⟩ := resizeContainer_eq_some.mp hdata
    refine Represents.setValue hw (h.resizeData ?_ (by rwa [one_mul] at hlt)) hcall
    exact (Nat.le_add_right _ _).trans (le_max_right _ _)
  · exact h.setValue hw hcall

theorem Represents.copyItem {k : ℕ} {v : Str}
    (h : Represents w c ((rows ++ replicate (k + 1) []).set rows.length v)) :
    Represents w { c with items := StringColumn.copyItem c.items rows.length }
      (rows ++ replicate (k + 1) v) := by
  refine ⟨h.width, h.data_lt, h.pos_lt, ?_⟩
  have hlen := h.rows.length_eq
  simp only [length_set, length_append, length_replicate] at hlen
  have hitem : c.items[rows.length]? = some (c.items.getD rows.length ⟨0, 0⟩) := by
    rw [getD_eq_getElem?_getD, getElem?_eq_getElem (by omega), getD_some]
  have hvalue : ((rows ++ replicate (k + 1) []).set rows.length v)[rows.length]? = some v := by
    simp
  have htake : ((rows ++ replicate (k + 1) []).set rows.length v).take (rows.length + 1) =
      rows ++ [v] := by
    simp [replicate_succ, take_append]
  have hrows : rows ++ replicate (k + 1) v =
      ((rows ++ replicate (k + 1) []).set rows.length v).take (rows.length + 1) ++
        replicate (c.items.length - (rows.length + 1)) v := by
    have hk : c.items.length - (rows.length + 1) = k := by omega
    rw [htake, hk, append_assoc, singleton_append, replicate_succ]
  rw [hrows]
  apply rel_append
  · exact forall₂_take _ h.rows
  · exact forall₂_replicate (forall₂_of_getElem? h.rows hitem hvalue) _

theorem Represents.resizeDefault (hw : w < 2 ^ 16) (h : Represents w c rows)
    (hsize : c.items.length ≤ size) (hcall : c.resizeDefault size d = some c') :
    ∃ v, truncateUtf8 d w = some v ∧
      Represents w c' (rows ++ replicate (size - rows.length) v) := by
  have hlen := h.rows.length_eq
  obtain ⟨v, hv, hcall⟩ := bind_eq_some_iff.mp hcall
  obtain ⟨items, hitems, hcall⟩ := bind_eq_some_iff.mp hcall
  obtain ⟨data, hdata, hcall⟩ := bind_eq_some_iff.mp hcall
  obtain ⟨-, rfl⟩ := resizeContainer_eq_some.mp hitems
  obtain ⟨hlt, rfl⟩ := resizeContainer_eq_some.mp hdata
  rw [one_mul] at hlt
  rw [h.width] at hv
  have hgrown := (h.growItems hsize).resizeData ((Nat.le_add_right _ _).trans (le_max_left _ _)) hlt
  refine ⟨v, hv, ?_⟩
  split_ifs at hcall with hnone
  · cases hcall
    rcases hnone with rfl | hle
    · exact hgrown
    · have hzero : size - rows.length = 0 := by omega
      rw [hzero] at hgrown ⊢
      exact hgrown
  · obtain ⟨c₂, hset, rfl⟩ := map_eq_some_iff.mp hcall
    obtain ⟨v', hv', hc₂⟩ := hgrown.setValue hw hset
    rw [truncateUtf8_of_le (length_truncateUtf8 hv)] at hv'
    cases hv'
    obtain ⟨k, hk⟩ : ∃ k, size - rows.length = k + 1 := ⟨size - rows.length - 1, by omega⟩
    rw [hk, hlen] at hc₂
    rw [hk, hlen]
    exact hc₂.copyItem

end

section

variable {w : ℕ} {c c' : StringColumn} {rows : List Str} {data : Str} {item : StringItem}
  {items : List StringItem} {garbage : StringItem}

def freshItems : StringItem → List StringItem → List StringItem
  | _, [] => []
  | pre, item :: items =>
    if item = pre then freshItems pre items else item :: freshItems item items

/-- The number of bytes that `dump` writes. -/
def freshLength (pre : StringItem) (items : List StringItem) : ℕ :=
  ((freshItems pre items).map StringItem.length).sum

def freshCount (pre : StringItem) (items : List StringItem) : ℕ :=
  ((freshItems pre items).filter (0 < ·.length)).length

/-- The first row has an item of its own, the truncated file keeps all bytes, and they end before the
position that is written with them. -/
structure StringColumn.DumpSafe (c : StringColumn) : Prop where
  first : c.items.head? ≠ some ⟨0, 0⟩
  kept : freshLength ⟨0, 0⟩ c.items = 0 ∨ freshLength ⟨0, 0⟩ c.items + 16 ≤
    freshLength ⟨0, 0⟩ c.items / freshCount ⟨0, 0⟩ c.items *
      max (c.items.length + (c.items.length + 3) / 4) 4096
  pos : freshLength ⟨0, 0⟩ c.items ≤ c.pos

structure Copies (data out : Str) (item item' : StringItem) : Prop where
  below : item'.offset + item'.length ≤ out.length
  short : item'.length < 2 ^ 16
  same : slice out item'.offset item'.length = slice data item.offset item.length

theorem Copies.append {out : Str} {item' : StringItem} (h : Copies data out item item')
    (new : Str) : Copies data (out ++ new) item item' := by
  refine ⟨?_, h.short, (slice_append_left h.below).trans h.same⟩
  have hbelow := h.below
  simp only [length_append]
  omega

theorem Dumped.row_eq_some {d d' : StringColumn.Dumped} (h : d.row data item = some d') :
    item = d.preItem ∧ d' = { d with itemOut := d.itemOut ++ [d.curItem] } ∨
      item ≠ d.preItem ∧ ∃ bytes, slice data item.offset item.length = some bytes ∧
        d' = ⟨d.dataOut ++ bytes, d.itemOut ++ [.pack d.dataOut.length item.length],
          .pack d.dataOut.length item.length, item,
          d.countNoEmpty + if 0 < item.length then 1 else 0⟩ := by
  unfold StringColumn.Dumped.row at h
  by_cases heq : item = d.preItem
  · rw [if_pos heq] at h
    exact .inl ⟨heq, (some.inj h).symm⟩
  · rw [if_neg heq] at h
    obtain ⟨bytes, hbytes, rfl⟩ := map_eq_some_iff.mp h
    exact .inr ⟨heq, bytes, hbytes, rfl⟩

/-- The rows are written as they are read, if `cur_item` belongs to `pre_item` where the first row
repeats this. -/
theorem foldlM_row {d d' : StringColumn.Dumped}
    (hfirst : ∀ item, items.head? = some item → item = d.preItem →
      Copies data d.dataOut d.preItem d.curItem)
    (hbound : d.dataOut.length + freshLength d.preItem items < 2 ^ 47)
    (hshort : ∀ item ∈ items, item.length < 2 ^ 16)
    (h : items.foldlM (StringColumn.Dumped.row data) d = some d') :
    ∃ new outs, d'.dataOut = d.dataOut ++ new ∧ d'.itemOut = d.itemOut ++ outs ∧
      Forall₂ (Copies data d'.dataOut) items outs ∧
      new.length = freshLength d.preItem items ∧
      d'.countNoEmpty = d.countNoEmpty + freshCount d.preItem items := by
  induction items generalizing d with
  | nil =>
    cases h
    exact ⟨[], [], by simp, by simp, .nil, rfl, rfl⟩
  | cons item items ih =>
    rw [foldlM_cons, bind_eq_bind, bind_eq_some_iff] at h
    obtain ⟨d₁, hd₁, h⟩ := h
    have hshort' : ∀ item ∈ items, item.length < 2 ^ 16 := fun x hx =>
      hshort x (mem_cons_of_mem item hx)
    rcases Dumped.row_eq_some hd₁ with ⟨heq, rfl⟩ | ⟨hne, bytes, hbytes, rfl⟩
    · have hcur := hfirst item rfl heq
      simp only [freshLength, freshCount, freshItems, if_pos heq] at hbound ⊢
      obtain ⟨new, outs, hdata, hitems, hcopies, hlen, hcount⟩ :=
        ih (d := { d with itemOut := d.itemOut ++ [d.curItem] }) (fun _ _ _ => hcur) hbound hshort' h
      refine ⟨new, d.curItem :: outs, hdata, by simpa using hitems, .cons ?_ hcopies, hlen, hcount⟩
      rw [hdata, heq]
      exact hcur.append new
    · have hbytesLen := length_of_slice hbytes
      have hitem : item.length < 2 ^ 16 := hshort item mem_cons_self
      simp only [freshLength, freshCount, freshItems, if_neg hne, map_cons, sum_cons] at hbound ⊢
      have hpack : StringItem.pack d.dataOut.length item.length = ⟨d.dataOut.length, item.length⟩ := by
        unfold StringItem.pack
        rw [Nat.mod_eq_of_lt (by omega), Nat.mod_eq_of_lt hitem]
      have hcur : Copies data (d.dataOut ++ bytes) item
          (StringItem.pack d.dataOut.length item.length) := by
        rw [hpack]
        refine ⟨by simp only [length_append]; omega, hitem, ?_⟩
        rw [hbytes, ← hbytesLen]
        exact slice_append_right _ _
      obtain ⟨new, outs, hdata, hitems, hcopies, hlen, hcount⟩ :=
        ih (fun _ _ _ => hcur) (by simp only [length_append, freshLength]; omega) hshort' h
      refine ⟨bytes ++ new, _ :: outs, by simpa using hdata, by simpa using hitems,
        .cons ?_ hcopies, ?_, ?_⟩
      · rw [hdata]
        exact hcur.append new
      · rw [length_append, hlen, hbytesLen, freshLength]
      · rw [hcount]
        by_cases hpos : 0 < item.length
        · simp [freshCount, hpos]
          omega
        · simp [freshCount, hpos]

instance (c : StringColumn) : Decidable c.DumpSafe :=
  decidable_of_iff (c.items.head? ≠ some ⟨0, 0⟩ ∧ (freshLength ⟨0, 0⟩ c.items = 0 ∨
      freshLength ⟨0, 0⟩ c.items + 16 ≤ freshLength ⟨0, 0⟩ c.items / freshCount ⟨0, 0⟩ c.items *
        max (c.items.length + (c.items.length + 3) / 4) 4096) ∧
      freshLength ⟨0, 0⟩ c.items ≤ c.pos)
    ⟨fun h => ⟨h.1, h.2.1, h.2.2⟩, fun h => ⟨h.first, h.kept, h.pos⟩⟩

theorem drop_containerFile {n : ℕ} (h : 16 ≤ n) (x : Str) :
    (fit 0 n (StringColumn.containerFile x)).drop 16 = fit 0 (n - 16) x := by
  have hlen : (replicate 16 (0 : UInt8)).length = 16 := length_replicate
  have hrest : n - (16 + x.length) = n - 16 - x.length := by omega
  unfold StringColumn.containerFile fit
  rw [take_append, take_of_length_le (by rw [hlen]; exact h), append_assoc,
    drop_append_of_le_length (by rw [hlen]), drop_of_length_le (by rw [hlen]),
    nil_append, length_append, hlen, hrest]

/-- What the items point at is in the file if nothing was written or the file keeps all bytes. -/
theorem Copies.reopen {out data' : Str} {item' : StringItem} {n : ℕ}
    (h : Copies data out item item') (hkept : out.length = 0 ∨ out.length + 16 ≤ n)
    (hopen : StringColumn.openContainer (fit 0 n (StringColumn.containerFile out)) = some data') :
    slice data' item'.offset item'.length = slice data item.offset item.length := by
  rw [← h.same]
  have hbelow := h.below
  rcases hkept with hzero | hle
  · have hoffset : item'.offset = 0 := by omega
    have hlength : item'.length = 0 := by omega
    rw [hoffset, hlength]
    simp [slice]
  · unfold StringColumn.openContainer at hopen
    split_ifs at hopen with hempty hsmall
    · have hlen := congrArg length hempty
      simp only [length_fit, length_nil] at hlen
      omega
    · cases hopen
      rw [drop_containerFile (by omega), slice_fit 0 hbelow (by omega)]

theorem length_openContainer {file data' : Str}
    (h : StringColumn.openContainer file = some data') : data'.length ≤ file.length := by
  unfold StringColumn.openContainer at h
  split_ifs at h
  · cases h
    exact Nat.zero_le _
  · cases h
    simp

theorem Represents.dumpOpen (h : Represents w c rows) (hsafe : c.DumpSafe)
    (hcall : c.dumpOpen garbage = some c') : Represents w c' rows := by
  obtain ⟨d, hd, hcall⟩ := bind_eq_some_iff.mp hcall
  have hpos := h.pos_lt
  have hfresh := hsafe.pos
  have hshort : ∀ item ∈ c.items, item.length < 2 ^ 16 := by
    intro item hitem
    obtain ⟨i, hi⟩ := mem_iff_getElem?.mp hitem
    have hlt := (List.getElem?_eq_some_iff.mp hi).1
    rw [h.rows.length_eq] at hlt
    exact (forall₂_of_getElem? h.rows hi (getElem?_eq_getElem hlt)).short
  have hfirst : ∀ item, c.items.head? = some item → item = ⟨0, 0⟩ →
      Copies c.data [] ⟨0, 0⟩ garbage := by
    intro item hitem heq
    rw [heq] at hitem
    exact absurd hitem hsafe.first
  obtain ⟨new, outs, hdata, hitems, hcopies, hlen, hcount⟩ := foldlM_row
    hfirst (by simp only [length_nil]; omega) hshort hd
  rw [nil_append] at hdata hitems
  rw [zero_add] at hcount
  split_ifs at hcall with hlt
  obtain ⟨data', hdata', rfl⟩ := map_eq_some_iff.mp hcall
  have hout : d.dataOut.length = freshLength ⟨0, 0⟩ c.items := by rw [hdata, hlen]
  have hkept : d.dataOut.length = 0 ∨ d.dataOut.length + 16 ≤ c.truncatedSize d := by
    rw [hout]
    apply hsafe.kept.imp_right
    intro hle
    have hcountPos : 0 < d.countNoEmpty := by
      rw [hcount]
      apply pos_of_ne_zero
      intro hzero
      rw [hzero] at hle
      omega
    unfold StringColumn.truncatedSize
    rwa [if_pos hcountPos, hout, hcount]
  refine ⟨h.width, ?_, hpos, ?_⟩
  · exact (length_openContainer hdata').trans_lt (by rwa [length_fit])
  · rw [hitems]
    apply forall₂_through _ hcopies h.rows
    intro item item' x hcopy hholds
    refine ⟨?_, hcopy.short, (hcopy.reopen hkept hdata').trans hholds.view⟩
    have hbelow := hcopy.below
    dsimp only
    omega

end

section

variable {w : ℕ} {c : StringColumn} {rows : List Str}

def columnStep (w : ℕ) (s : StringColumn × List Str) (call : ColumnCall) :
    Option (StringColumn × List Str) :=
  (s.1.call call).map fun c => (c, callRows w s.2 call)

def growing (s : StringColumn × List Str) : ColumnCall → Prop
  | .resize size => s.1.items.length ≤ size
  | .resizeDefault size _ => s.1.items.length ≤ size
  | _ => True

def safeDumps (s : StringColumn × List Str) : ColumnCall → Prop
  | .dumpOpen _ => s.1.DumpSafe
  | call => growing s call

instance : ∀ (s : StringColumn × List Str) (call : ColumnCall), Decidable (growing s call)
  | s, .resize size => inferInstanceAs (Decidable (s.1.items.length ≤ size))
  | s, .resizeDefault size _ => inferInstanceAs (Decidable (s.1.items.length ≤ size))
  | _, .setAny _ _ => .isTrue trivial
  | _, .setValue _ _ => .isTrue trivial
  | _, .dumpOpen _ => .isTrue trivial

instance : ∀ (s : StringColumn × List Str) (call : ColumnCall), Decidable (safeDumps s call)
  | s, .resize size => inferInstanceAs (Decidable (s.1.items.length ≤ size))
  | s, .resizeDefault size _ => inferInstanceAs (Decidable (s.1.items.length ≤ size))
  | _, .setAny _ _ => .isTrue trivial
  | _, .setValue _ _ => .isTrue trivial
  | s, .dumpOpen _ => inferInstanceAs (Decidable s.1.DumpSafe)

theorem Represents.step (hw : w < 2 ^ 16) {s s' : StringColumn × List Str} {call : ColumnCall}
    (h : Represents w s.1 s.2) (hok : safeDumps s call) (hstep : columnStep w s call = some s') :
    Represents w s'.1 s'.2 := by
  obtain ⟨c', hcall, rfl⟩ := map_eq_some_iff.mp hstep
  cases call with
  | resize size => exact h.resize hok hcall
  | resizeDefault size d =>
    obtain ⟨v, hv, hrows⟩ := h.resizeDefault hw hok hcall
    simpa only [callRows, hv, getD_some] using hrows
  | setAny i val =>
    obtain ⟨v, hv, hrows⟩ := h.setAny hw hcall
    simpa only [callRows, hv, getD_some] using hrows
  | setValue i val =>
    obtain ⟨v, hv, hrows⟩ := h.setValue hw hcall
    simpa only [callRows, hv, getD_some] using hrows
  | dumpOpen garbage => exact h.dumpOpen hok hcall

/-- In a run with safe dumps every row reads as the last value written to it, or as its default. -/
theorem stringColumn_refines (hw : w < 2 ^ 16)
    (h : Reach (· = (StringColumn.empty w, [])) (columnStep w) safeDumps (c, rows)) :
    c.items.length = rows.length ∧ ∀ i, c.getView i = rows[i]? := by
  have hrep : Represents w c rows := by
    refine Reach.invariant (J := fun s => Represents w s.1 s.2)
      (fun _ _ => trivial) ?_ (fun s l s' _ hs hok hstep => hs.step hw hok hstep) h
    rintro s rfl
    exact ⟨rfl, by simp [StringColumn.empty], by simp [StringColumn.empty], .nil⟩
  exact ⟨hrep.rows.length_eq, hrep.getView⟩

/-- Two rows, the second written, a dump and a new value for the first. -/
theorem stringColumn_refines_two :
    ∃ c rows, Reach (· = (StringColumn.empty 8, [])) (columnStep 8) safeDumps (c, rows) ∧
      rows = [[122, 122], [120]] ∧ c.items.length = rows.length ∧ ∀ i, c.getView i = rows[i]? := by
  have hstart : Reach (· = (StringColumn.empty 8, [])) (columnStep 8) safeDumps
      (StringColumn.empty 8, []) := .init rfl
  obtain ⟨⟨c, rows⟩, hreach, hrows⟩ := hstart.exists_of_execute
    [.resizeDefault 2 [100, 100], .setAny 1 [120], .dumpOpen ⟨7, 7⟩, .setAny 0 [122, 122]]
    (fun s => s.2 = [[122, 122], [120]]) (by decide +kernel)
  exact ⟨c, rows, hreach, hrows, stringColumn_refines (by decide) hreach⟩

/-- Three rows with one default, the second written. The dump writes the default twice, so that its
bytes end behind the position, and the next value overwrites the third row. -/
theorem stringColumn_overwritten : ¬ ∀ w < 2 ^ 16, ∀ c rows,
      Reach (· = (StringColumn.empty w, [])) (columnStep w) growing (c, rows) →
      c.items.length = rows.length ∧ ∀ i, c.getView i = rows[i]? := by
  intro hall
  have hstart : Reach (· = (StringColumn.empty 8, [])) (columnStep 8) growing
      (StringColumn.empty 8, []) := .init rfl
  obtain ⟨⟨c, rows⟩, hreach, hview, hrow⟩ := hstart.exists_of_execute
    [.resizeDefault 3 [100, 100], .setAny 1 [120], .dumpOpen ⟨7, 7⟩, .setAny 0 [122, 122]]
    (fun s => s.1.getView 2 = some [122, 122] ∧ s.2[2]? = some [100, 100]) (by decide +kernel)
  have hsame := (hall 8 (by decide) c rows hreach).2 2
  rw [hview, hrow] at hsame
  cases hsame

end

end Neug.Storage
