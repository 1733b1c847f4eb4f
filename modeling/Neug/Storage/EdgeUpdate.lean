import Neug.Storage.EdgeDeletion

/-! `EdgeTable::UpdateEdgeProperty` on an edge that is given by its offsets in both lists. The
function walks over the visible entries of a list, as many as the offset says. -/
namespace Neug.Storage
open Neug.Lib List Option Call MutableCsr

variable {V D : Type}

section

variable {l : List (Nbr D)} {n : Nbr D} {ts o : ℕ}

/-- An offset that passes a test stands in the list of such offsets behind those before it. -/
theorem getElem?_offsets {p : Nbr D → Bool} (hn : l[o]? = some n) (hp : p n = true) :
    (offsets p l)[(l.take o).countP p]? = some o := by
  have hlt : o < l.length := (List.getElem?_eq_some_iff.mp hn).1
  have hsplit : range l.length = range o ++ o :: range' (o + 1) (l.length - o - 1) := by
    have happ := range'_append_1 (s := 0) (m := o) (n := l.length - o - 1 + 1)
    rw [zero_add, show o + (l.length - o - 1 + 1) = l.length by omega] at happ
    rw [range_eq_range', range_eq_range', ← range'_succ, happ]
  have hlen : ((range o).filter fun i => (l[i]?).any p).length = (l.take o).countP p := by
    have hpre := length_offsets p (l.take o)
    rw [offsets_eq_filter, length_take_of_le hlt.le] at hpre
    rw [← hpre]
    congr 1
    apply filter_congr
    intro i hi
    rw [getElem?_take_of_lt (mem_range.mp hi)]
  rw [offsets_eq_filter, hsplit, filter_append, filter_cons_of_pos (by simp [hn, hp]),
    getElem?_append_right hlen.le, hlen, Nat.sub_self, getElem?_cons_zero]

/-- A walk over as many visible entries as the offset says ends at the offset exactly if all
entries before it are visible. -/
theorem getElem?_offsets_eq_iff (hn : l[o]? = some n) (hvis : n.timestamp ≤ ts) :
    (offsets (Nbr.visible ts) l)[o]? = some o ↔ Ranked l ts o := by
  have hlt : o < l.length := (List.getElem?_eq_some_iff.mp hn).1
  have hrank := getElem?_offsets (p := Nbr.visible ts) hn (by simpa [Nbr.visible] using hvis)
  rw [ranked_iff_countP hlt.le]
  constructor
  · intro hwalk
    have hin := (List.getElem?_eq_some_iff.mp hrank).1
    exact (getElem?_inj hin (nodup_offsets _ _)).mp (hrank.trans hwalk.symm)
  · intro hcount
    rwa [hcount] at hrank

theorem advance_eq_some_iff {c : MutableCsr D} {v i : ℕ} : c.advance v ts o = some (some (i, n)) ↔
      (offsets (Nbr.visible ts) (c.list v))[o]? = some i ∧ (c.list v)[i]? = some n := by
  unfold advance
  constructor
  · intro h
    by_cases hsize : c.size ≤ v
    · rw [if_pos hsize] at h
      cases h
    rw [if_neg hsize] at h
    cases hk : (offsets (Nbr.visible ts) (c.list v))[o]? with
    | none =>
      simp only [hk] at h
      split_ifs at h
      cases h
    | some k =>
      simp only [hk] at h
      obtain ⟨m, hm, heq⟩ := map_eq_some_iff.mp h
      cases heq
      exact ⟨rfl, hm⟩
  · rintro ⟨hk, hn⟩
    have hsize : ¬ c.size ≤ v := by
      have := lt_size_of_getElem? hn
      omega
    simp [if_neg hsize, hk, hn]

end

variable {c : MutableCsr D} {n : Nbr D}

theorem getElem?_setNbr {v i : ℕ} (hn : (c.list v)[i]? = some n) (n' : Nbr D) (u k : ℕ) :
    ((c.setNbr v i n').list u)[k]? = if (u, k) = (v, i) then some n' else (c.list u)[k]? := by
  have hi := (List.getElem?_eq_some_iff.mp hn).1
  rw [list_setNbr (lt_size_of_getElem? hn)]
  by_cases hu : u = v
  · subst hu
    by_cases hk : k = i
    · subst hk
      simp [hi]
    · simp [hk, Ne.symm hk]
  · simp [hu]

theorem mem_setNbr {v i u : ℕ} {n' e : Nbr D}
    (hn : (c.list v)[i]? = some n) (he : e ∈ (c.setNbr v i n').list u) : e ∈ c.list u ∨ e = n' := by
  obtain ⟨k, hk⟩ := getElem?_of_mem he
  rw [getElem?_setNbr hn] at hk
  split_ifs at hk
  · exact .inr (some.inj hk).symm
  · exact .inl (mem_of_getElem? hk)

theorem length_setNbr {v i : ℕ} (hn : (c.list v)[i]? = some n) (n' : Nbr D) (u : ℕ) :
    ((c.setNbr v i n').list u).length = (c.list u).length := by
  rw [list_setNbr (lt_size_of_getElem? hn)]
  split_ifs with hu
  · rw [length_set, hu]
  · rfl

theorem getElem?_setNbr_ne {v i k : ℕ} (hn : (c.list v)[i]? = some n) (hne : i ≠ k) (n' : Nbr D) :
    ((c.setNbr v i n').list v)[k]? = (c.list v)[k]? := by
  rw [getElem?_setNbr hn, if_neg fun h => hne (Prod.mk.inj h).2.symm]

namespace EdgeTable

variable {t t' : EdgeTable V} {ts src dst o j col : ℕ} {value : V} {p : PropertyDef V}

theorem updateEdgeProperty_bundled_iff (hp : t.properties = [p]) (hb : isBundled [p] = true)
    (hcsr : t.csrType = some p.type) :
    updateEdgeProperty src dst o j col value ts t = some (.ok (), t') ↔
      ∃ i n k m, t.outCsr.advance src ts o = some (some (i, n)) ∧
        t.inCsr.advance dst ts j = some (some (k, m)) ∧
        t' = { t with outCsr := t.outCsr.setNbr src i ⟨n.neighbor, ts, .value value⟩
                      inCsr := t.inCsr.setNbr dst k ⟨m.neighbor, ts, .value value⟩ } := by
  have hset : ∀ n : Nbr (EdgeData V),
      t.bundledSet value ts n = some ⟨n.neighbor, ts, .value value⟩ := by
    simp [bundledSet, hp, hcsr]
  have hb' : isBundled t.properties = true := by
    rw [hp]
    exact hb
  rw [updateEdgeProperty, read_bind, if_pos hb', updateBundled, read_bind, defined_bind_eq_some]
  constructor
  · rintro ⟨x, hx, hrun⟩
    cases x with
    | none => cases hrun
    | some q =>
      obtain ⟨i, n⟩ := q
      simp only [hset] at hrun
      obtain ⟨n', hn', hrun⟩ := defined_bind_eq_some.mp hrun
      cases hn'
      obtain ⟨y, hy, hrun⟩ := defined_bind_eq_some.mp hrun
      cases y with
      | none => cases hrun
      | some q =>
        obtain ⟨k, m⟩ := q
        obtain ⟨m', hm', hrun⟩ := defined_bind_eq_some.mp hrun
        obtain rfl := some.inj ((hset m).symm.trans hm')
        cases hrun
        exact ⟨i, n, k, m, hx, hy, rfl⟩
  · rintro ⟨i, n, k, m, hout, hin, rfl⟩
    refine ⟨_, hout, defined_bind_eq_some.mpr ⟨_, hset n, ?_⟩⟩
    exact defined_bind_eq_some.mpr ⟨_, hin, defined_bind_eq_some.mpr ⟨_, hset m, rfl⟩⟩

theorem updateEdgeProperty_rows_iff (hb : isBundled t.properties = false)
    (hcol : col < t.properties.length) :
    updateEdgeProperty src dst o j col value ts t = some (.ok (), t') ↔
      ∃ i n r c, t.outCsr.advance src ts o = some (some (i, n)) ∧ n.data = .row r ∧
        t.table.columns[col]? = some c ∧ r < c.cells.length ∧
        t' = { t with
          outCsr := t.outCsr.setNbr src i { n with timestamp := ts }
          table := { t.table with
            columns := t.table.columns.set col { c with cells := c.cells.set r value } } } := by
  rw [updateEdgeProperty, read_bind, hb, if_neg (by simp), updateUnbundled, read_bind,
    if_neg (by omega), defined_bind_eq_some]
  constructor
  · rintro ⟨x, hx, hrun⟩
    cases x with
    | none => cases hrun
    | some q =>
      obtain ⟨i, n⟩ := q
      cases hd : n.data with
      | empty => simp [hd] at hrun
      | value v => simp [hd] at hrun
      | row r =>
        simp only [hd, modify_bind, onTable, Table.setProp] at hrun
        cases hc : t.table.columns[col]? with
        | none => simp [hc] at hrun
        | some c =>
          by_cases hr : r < c.cells.length
          · simp only [hc, Column.setValue, if_pos hr] at hrun
            cases hrun
            exact ⟨i, n, r, c, hx, hd, rfl, hr, by rw [← hd]⟩
          · simp [hc, Column.setValue, hr] at hrun
  · rintro ⟨i, n, r, c, hx, hd, hc, hr, rfl⟩
    refine ⟨_, hx, ?_⟩
    simp [hd, onTable, Table.setProp, hc, Column.setValue, if_pos hr]

/-- The entries at two offsets are the two ends of an edge that is visible at `ts`. -/
structure Addresses (t : EdgeTable V) (ts src dst o j : ℕ) (n m : Nbr (EdgeData V)) : Prop where
  out : (t.outCsr.list src)[o]? = some n
  inn : (t.inCsr.list dst)[j]? = some m
  dst : n.neighbor = dst
  src : m.neighbor = src
  outVisible : n.timestamp ≤ ts
  inVisible : m.timestamp ≤ ts
  data : m.data = n.data

def OwnRows (c : MutableCsr (EdgeData V)) (ts : ℕ) : Prop :=
  ∀ (v k v' k' r : ℕ) (n n' : Nbr (EdgeData V)), (c.list v)[k]? = some n →
    (c.list v')[k']? = some n' → n.timestamp ≤ ts → n'.timestamp ≤ ts → n.data = .row r →
    n'.data = .row r → (v, k) = (v', k')

/-- The change of one property of the edge with the ends `n` and `m`, and of nothing else that is
visible at `ts`. -/
structure Changes (t t' : EdgeTable V) (ts src dst o j col : ℕ) (value : V)
    (n m : Nbr (EdgeData V)) : Prop where
  outOther : ∀ v k, (v, k) ≠ (src, o) → (t'.outCsr.list v)[k]? = (t.outCsr.list v)[k]?
  inOther : ∀ v k, (v, k) ≠ (dst, j) → (t'.inCsr.list v)[k]? = (t.inCsr.list v)[k]?
  outKeeps : ∀ v k e, (v, k) ≠ (src, o) → (t.outCsr.list v)[k]? = some e → e.timestamp ≤ ts →
    t'.readData e.data = t.readData e.data
  inKeeps : ∀ v k e, (v, k) ≠ (dst, j) → (t.inCsr.list v)[k]? = some e → e.timestamp ≤ ts →
    t'.readData e.data = t.readData e.data
  outEdge : ∃ n', (t'.outCsr.list src)[o]? = some n' ∧ n'.neighbor = dst ∧ n'.timestamp ≤ ts ∧
    t'.readData n'.data = (t.readData n.data).set col (some value)
  inEdge : ∃ m', (t'.inCsr.list dst)[j]? = some m' ∧ m'.neighbor = src ∧ m'.timestamp ≤ ts ∧
    t'.readData m'.data = (t.readData m.data).set col (some value)

@[simp] theorem length_readData (t : EdgeTable V) (d : EdgeData V) :
    (t.readData d).length = t.properties.length := by
  unfold readData
  split_ifs <;> cases d <;> simp

section

variable {x : Column V} {r : ℕ} (hb : isBundled t.properties = false)
  (hx : t.table.columns[col]? = some x) (hr : r < x.cells.length)
include hb hx hr

theorem readData_setCell {c : MutableCsr (EdgeData V)} (r' : ℕ) : EdgeTable.readData { t with
      outCsr := c
      table := { t.table with
        columns := t.table.columns.set col { x with cells := x.cells.set r value } } } (.row r') =
      if r' = r then (t.readData (.row r)).set col (some value) else t.readData (.row r') := by
  have hcol : col < t.table.columns.length := (List.getElem?_eq_some_iff.mp hx).1
  simp only [readData, hb]
  apply ext_getElem?
  intro k
  by_cases hk : k < t.properties.length
  · by_cases hrr : r' = r
    · subst hrr
      by_cases hkc : k = col
      · subst hkc
        simp [hk, hcol, hr]
      · simp [hk, Ne.symm hkc]
    · by_cases hkc : k = col
      · subst hkc
        simp [hk, hcol, hrr, Ne.symm hrr, (List.getElem?_eq_some_iff.mp hx).2]
      · simp [hk, Ne.symm hkc, hrr]
  · by_cases hrr : r' = r <;> simp [hk, hrr]

theorem readData_other {c : MutableCsr (EdgeData V)} {d : EdgeData V} (hd : d ≠ .row r) :
    EdgeTable.readData { t with
      outCsr := c
      table := { t.table with
        columns := t.table.columns.set col { x with cells := x.cells.set r value } } } d =
      t.readData d := by
  cases d with
  | empty => rfl
  | value w => rfl
  | row r' => rw [readData_setCell hb hx hr r', if_neg fun h => hd (by rw [h])]

end

theorem eq_singleton_of_bundled (hb : isBundled t.properties = true)
    (hcol : col < t.properties.length) :
    col = 0 ∧ ∃ p, t.properties = [p] ∧ isBundled [p] = true := by
  match hp : t.properties with
  | [] => simp [hp] at hcol
  | [p] =>
    rw [hp, length_singleton] at hcol
    exact ⟨by omega, p, rfl, hp ▸ hb⟩
  | _ :: _ :: _ => simp [hp, isBundled] at hb

section

variable [PropertyValue V]

structure Sound (t : EdgeTable V) (ts : ℕ) : Prop where
  outFits : ∀ v, ∀ n ∈ t.outCsr.list v, Fits t.properties n.data
  inFits : ∀ v, ∀ n ∈ t.inCsr.list v, Fits t.properties n.data
  outDegree : ∀ v, (t.outCsr.list v).length ≤ int32Max
  inDegree : ∀ v, (t.inCsr.list v).length ≤ int32Max
  csrType : ∀ p, t.properties = [p] → isBundled [p] = true → t.csrType = some p.type
  outTyped : ∀ p, t.properties = [p] → ∀ v, ∀ n ∈ t.outCsr.list v, ∀ w, n.data = .value w →
    PropertyValue.type w = p.type
  inTyped : ∀ p, t.properties = [p] → ∀ v, ∀ n ∈ t.inCsr.list v, ∀ w, n.data = .value w →
    PropertyValue.type w = p.type
  columns : isBundled t.properties = false → t.table.columns.length = t.properties.length
  room : ∀ v, ∀ n ∈ t.outCsr.list v, n.timestamp ≤ ts → ∀ r, n.data = .row r →
    ∀ c ∈ t.table.columns, r < c.cells.length
  outRows : OwnRows t.outCsr ts
  inRows : OwnRows t.inCsr ts

def HasType (t : EdgeTable V) (col : ℕ) (value : V) : Prop :=
  ∃ p, t.properties[col]? = some p ∧ PropertyValue.type value = p.type

def UpdatesEdge (t : EdgeTable V) (ts src dst o j col : ℕ) (n m : Nbr (EdgeData V)) : Prop :=
  ∀ value, t.HasType col value → ∃ t', updateEdgeProperty src dst o j col value ts t =
    some (.ok (), t') ∧ Changes t t' ts src dst o j col value n m

variable {n m : Nbr (EdgeData V)}

def updated (t : EdgeTable V) (src dst o j : ℕ) (value : V) (ts : ℕ) : EdgeTable V :=
  { t with outCsr := t.outCsr.setNbr src o ⟨dst, ts, .value value⟩
           inCsr := t.inCsr.setNbr dst j ⟨src, ts, .value value⟩ }

theorem update_bundled (hs : t.Sound ts) (ha : t.Addresses ts src dst o j n m)
    (hp : t.properties = [p]) (hb : isBundled [p] = true)
    (hout : Ranked (t.outCsr.list src) ts o) (hin : Ranked (t.inCsr.list dst) ts j) :
    updateEdgeProperty src dst o j 0 value ts t = some (.ok (), t.updated src dst o j value ts) ∧
      Changes t (t.updated src dst o j value ts) ts src dst o j 0 value n m := by
  constructor
  · refine (updateEdgeProperty_bundled_iff hp hb (hs.csrType p hp hb)).mpr ⟨o, n, j, m, ?_, ?_, ?_⟩
    · exact advance_eq_some_iff.mpr
        ⟨(getElem?_offsets_eq_iff ha.out ha.outVisible).mpr hout, ha.out⟩
    · exact advance_eq_some_iff.mpr ⟨(getElem?_offsets_eq_iff ha.inn ha.inVisible).mpr hin, ha.inn⟩
    · rw [ha.dst, ha.src]
      rfl
  · have hread : ∀ d, (t.updated src dst o j value ts).readData d = t.readData d := fun d => rfl
    have hvalue : ∀ e : Nbr (EdgeData V), Fits t.properties e.data →
        (t.readData e.data).set 0 (some value) = t.readData (.value value) := by
      intro e he
      cases hd : e.data with
      | empty => simp [hd, Fits, hp] at he
      | row r => simp [hd, Fits, hp, hb] at he
      | value w => simp [readData, hp, hb]
    refine ⟨fun v k hne => ?_, fun v k hne => ?_, fun _ _ _ _ _ _ => rfl, fun _ _ _ _ _ _ => rfl,
      ⟨⟨dst, ts, .value value⟩, ?_, rfl, le_rfl, ?_⟩,
      ⟨⟨src, ts, .value value⟩, ?_, rfl, le_rfl, ?_⟩⟩
    · exact (getElem?_setNbr ha.out _ v k).trans (if_neg hne)
    · exact (getElem?_setNbr ha.inn _ v k).trans (if_neg hne)
    · exact (getElem?_setNbr ha.out _ src o).trans (if_pos rfl)
    · rw [hread, hvalue n (hs.outFits src n (mem_of_getElem? ha.out))]
    · exact (getElem?_setNbr ha.inn _ dst j).trans (if_pos rfl)
    · rw [hread, hvalue m (hs.inFits dst m (mem_of_getElem? ha.inn))]

def updatedRow (t : EdgeTable V) (src o col r : ℕ) (n : Nbr (EdgeData V)) (x : Column V)
    (value : V) (ts : ℕ) : EdgeTable V :=
  { t with
    outCsr := t.outCsr.setNbr src o { n with timestamp := ts }
    table := { t.table with
      columns := t.table.columns.set col { x with cells := x.cells.set r value } } }

section

variable (hs : t.Sound ts) (ha : t.Addresses ts src dst o j n m)
include hs ha

theorem update_rows (hb : isBundled t.properties = false) (hcol : col < t.properties.length)
    (hout : Ranked (t.outCsr.list src) ts o) :
    ∃ r x, n.data = .row r ∧ t.table.columns[col]? = some x ∧
      updateEdgeProperty src dst o j col value ts t =
        some (.ok (), t.updatedRow src o col r n x value ts) ∧
      Changes t (t.updatedRow src o col r n x value ts) ts src dst o j col value n m := by
  have hnmem := mem_of_getElem? ha.out
  obtain ⟨r, hr⟩ : ∃ r, n.data = .row r := by
    have hfits := hs.outFits src n hnmem
    cases hd : n.data with
    | empty =>
      simp only [hd, Fits] at hfits
      simp [hfits, isBundled] at hb
    | value w => simp [hd, Fits, hb] at hfits
    | row r => exact ⟨r, rfl⟩
  have hlt : col < t.table.columns.length := by
    rw [hs.columns hb]
    exact hcol
  have hx : t.table.columns[col]? = some t.table.columns[col] := getElem?_eq_getElem hlt
  have hroom := hs.room src n hnmem ha.outVisible r hr _ (getElem_mem hlt)
  refine ⟨r, _, hr, hx, ?_, ?_⟩
  · exact (updateEdgeProperty_rows_iff hb hcol).mpr ⟨o, n, r, _, advance_eq_some_iff.mpr
      ⟨(getElem?_offsets_eq_iff ha.out ha.outVisible).mpr hout, ha.out⟩, hr, hx, hroom, rfl⟩
  · have hread (r' : ℕ) : (t.updatedRow src o col r n _ value ts).readData (.row r') =
        if r' = r then (t.readData (.row r)).set col (some value) else t.readData (.row r') :=
      readData_setCell hb hx hroom r'
    have hother : ∀ d, d ≠ .row r →
        (t.updatedRow src o col r n t.table.columns[col] value ts).readData d = t.readData d :=
      fun d hd => readData_other hb hx hroom hd
    refine ⟨fun v k hne => ?_, fun _ _ _ => rfl, fun v k e hne he hvis => hother _ fun hrow => ?_,
      fun v k e hne he hvis => hother _ fun hrow => ?_,
      ⟨{ n with timestamp := ts }, ?_, ha.dst, le_rfl, ?_⟩, ⟨m, ha.inn, ha.src, ha.inVisible, ?_⟩⟩
    · exact (getElem?_setNbr ha.out _ v k).trans (if_neg hne)
    · exact hne (hs.outRows v k src o r e n he ha.out hvis ha.outVisible hrow hr)
    · exact hne (hs.inRows v k dst j r e m he ha.inn hvis ha.inVisible hrow (ha.data.trans hr))
    · exact (getElem?_setNbr ha.out _ src o).trans (if_pos rfl)
    · simp [hr, hread]
    · simp [ha.data, hr, hread]

theorem updatesEdge_of_ranked
    (hcol : col < t.properties.length) (hout : Ranked (t.outCsr.list src) ts o)
    (hin : isBundled t.properties = true → Ranked (t.inCsr.list dst) ts j) :
    t.UpdatesEdge ts src dst o j col n m := by
  intro value _
  cases hb : isBundled t.properties with
  | true =>
    obtain ⟨rfl, p, hp, hb'⟩ := eq_singleton_of_bundled hb hcol
    exact ⟨_, update_bundled hs ha hp hb' hout (hin hb)⟩
  | false =>
    obtain ⟨r, x, -, -, hrun, hchange⟩ := update_rows hs ha hb hcol hout
    exact ⟨_, hrun, hchange⟩

/-- Updates through two offsets change the edge at these offsets exactly if the walks over the
visible entries end there. In a table with rows only the outgoing list is walked. -/
theorem updatesEdge_iff (hcol : col < t.properties.length)
    (htwo : ∃ a b, t.HasType col a ∧ t.HasType col b ∧ a ≠ b) :
    t.UpdatesEdge ts src dst o j col n m ↔ Ranked (t.outCsr.list src) ts o ∧
      (isBundled t.properties = true → Ranked (t.inCsr.list dst) ts j) := by
  refine ⟨fun hup => ?_, fun h => updatesEdge_of_ranked hs ha hcol h.1 h.2⟩
  -- a value that the edge does not have
  obtain ⟨value, htype, hnew⟩ : ∃ value, t.HasType col value ∧
      t.readData n.data ≠ (t.readData n.data).set col (some value) := by
    obtain ⟨a, b, hta, htb, hab⟩ := htwo
    by_cases hold : t.readData n.data = (t.readData n.data).set col (some a)
    · refine ⟨b, htb, fun hold' => hab ?_⟩
      have hget := congrArg (fun l => l[col]?) (hold.symm.trans hold')
      simpa [hcol] using hget
    · exact ⟨a, hta, hold⟩
  obtain ⟨t', hrun, hchange⟩ := hup value htype
  obtain ⟨n', hn', -, -, hval⟩ := hchange.outEdge
  cases hb : isBundled t.properties with
  | true =>
    obtain ⟨rfl, p, hp, hb'⟩ := eq_singleton_of_bundled hb hcol
    obtain ⟨i, x, k, y, hi, hk, rfl⟩ :=
      (updateEdgeProperty_bundled_iff hp hb' (hs.csrType p hp hb')).mp hrun
    obtain ⟨hi, hx⟩ := advance_eq_some_iff.mp hi
    obtain ⟨hk, hy⟩ := advance_eq_some_iff.mp hk
    obtain ⟨m', hm', -, -, hval'⟩ := hchange.inEdge
    have hio : i = o := by
      by_contra hne
      rw [getElem?_setNbr_ne hx hne, ha.out] at hn'
      cases hn'
      exact hnew hval
    have hkj : k = j := by
      by_contra hne
      rw [getElem?_setNbr_ne hy hne, ha.inn] at hm'
      cases hm'
      rw [ha.data] at hval'
      exact hnew hval'
    exact ⟨(getElem?_offsets_eq_iff ha.out ha.outVisible).mp (hio ▸ hi),
      fun _ => (getElem?_offsets_eq_iff ha.inn ha.inVisible).mp (hkj ▸ hk)⟩
  | false =>
    obtain ⟨i, x, r, c, hi, hr, hc, hroom, rfl⟩ := (updateEdgeProperty_rows_iff hb hcol).mp hrun
    obtain ⟨hi, hx⟩ := advance_eq_some_iff.mp hi
    have hio : i = o := by
      by_contra hne
      have hvis : x.timestamp ≤ ts := by
        obtain ⟨x', hx', hp⟩ := mem_offsets.mp (mem_of_getElem? hi)
        rw [hx] at hx'
        cases hx'
        simpa [Nbr.visible] using hp
      rw [getElem?_setNbr_ne hx hne, ha.out] at hn'
      cases hn'
      have hrow : n.data ≠ .row r := fun hrow =>
        hne (Prod.mk.inj (hs.outRows src i src o r x n hx ha.out hvis ha.outVisible hr hrow)).2
      rw [readData_other hb hc hroom hrow] at hval
      exact hnew hval
    exact ⟨(getElem?_offsets_eq_iff ha.out ha.outVisible).mp (hio ▸ hi), fun h => by cases h⟩

theorem sound_updated (hp : t.properties = [p]) (hb : isBundled [p] = true)
    (htype : PropertyValue.type value = p.type) : (t.updated src dst o j value ts).Sound ts := by
  have hfits : Fits t.properties (.value value) := by simp [Fits, hp, hb]
  have hout (v : ℕ) : ∀ e ∈ (t.updated src dst o j value ts).outCsr.list v,
      Fits t.properties e.data := by
    intro e he
    rcases mem_setNbr ha.out he with he | rfl
    · exact hs.outFits v e he
    · exact hfits
  have hin (v : ℕ) : ∀ e ∈ (t.updated src dst o j value ts).inCsr.list v,
      Fits t.properties e.data := by
    intro e he
    rcases mem_setNbr ha.inn he with he | rfl
    · exact hs.inFits v e he
    · exact hfits
  have hnorow : ∀ e : Nbr (EdgeData V), Fits t.properties e.data → ∀ r, e.data ≠ .row r := by
    intro e he r hr
    simp [hr, Fits, hp, hb] at he
  refine ⟨hout, hin, fun v => ?_, fun v => ?_, hs.csrType, fun q hq v e he w hw => ?_,
    fun q hq v e he w hw => ?_, hs.columns, fun v e he _ r hr => ?_, ?_, ?_⟩
  · exact (length_setNbr ha.out _ v).trans_le (hs.outDegree v)
  · exact (length_setNbr ha.inn _ v).trans_le (hs.inDegree v)
  · rcases mem_setNbr ha.out he with he | rfl
    · exact hs.outTyped q hq v e he w hw
    · obtain rfl := EdgeData.value.inj hw
      rw [htype, ← singleton_inj.mp (hp.symm.trans hq)]
  · rcases mem_setNbr ha.inn he with he | rfl
    · exact hs.inTyped q hq v e he w hw
    · obtain rfl := EdgeData.value.inj hw
      rw [htype, ← singleton_inj.mp (hp.symm.trans hq)]
  · exact absurd hr (hnorow e (hout v e he) r)
  · intro v k v' k' r e e' he _ _ _ hr _
    exact absurd hr (hnorow e (hout v e (mem_of_getElem? he)) r)
  · intro v k v' k' r e e' he _ _ _ hr _
    exact absurd hr (hnorow e (hin v e (mem_of_getElem? he)) r)

theorem sound_updatedRow {r : ℕ} {x : Column V} (hx : t.table.columns[col]? = some x) :
    (t.updatedRow src o col r n x value ts).Sound ts := by
  -- the entry keeps its data and stays visible
  have hentry : ∀ (v k : ℕ) (e : Nbr (EdgeData V)),
      ((t.updatedRow src o col r n x value ts).outCsr.list v)[k]? = some e → e.timestamp ≤ ts →
      ∃ e', (t.outCsr.list v)[k]? = some e' ∧ e'.timestamp ≤ ts ∧ e'.data = e.data := by
    intro v k e he hvis
    rw [updatedRow, getElem?_setNbr ha.out] at he
    split_ifs at he with hvk
    · cases hvk
      cases he
      exact ⟨n, ha.out, ha.outVisible, rfl⟩
    · exact ⟨e, he, hvis, rfl⟩
  have hmem : ∀ v, ∀ e ∈ (t.updatedRow src o col r n x value ts).outCsr.list v,
      ∃ e' ∈ t.outCsr.list v, e'.data = e.data := by
    intro v e he
    obtain ⟨k, hk⟩ := getElem?_of_mem he
    rw [updatedRow, getElem?_setNbr ha.out] at hk
    split_ifs at hk with hvk
    · cases hvk
      cases hk
      exact ⟨n, mem_of_getElem? ha.out, rfl⟩
    · exact ⟨e, mem_of_getElem? hk, rfl⟩
  refine ⟨fun v e he => ?_, hs.inFits, fun v => ?_, hs.inDegree, hs.csrType,
    fun q hq v e he w hw => ?_, hs.inTyped, fun hb => ?_, fun v e he hvis r' hr' c hc => ?_, ?_,
    hs.inRows⟩
  · obtain ⟨e', he', hdata⟩ := hmem v e he
    rw [← hdata]
    exact hs.outFits v e' he'
  · exact (length_setNbr ha.out _ v).trans_le (hs.outDegree v)
  · obtain ⟨e', he', hdata⟩ := hmem v e he
    exact hs.outTyped q hq v e' he' w (hdata.trans hw)
  · exact (length_set ..).trans (hs.columns hb)
  · obtain ⟨k, hk⟩ := getElem?_of_mem he
    obtain ⟨e', he', hvis', hdata⟩ := hentry v k e hk hvis
    have hroom := hs.room v e' (mem_of_getElem? he') hvis' r' (hdata.trans hr')
    rcases mem_or_eq_of_mem_set hc with hc | rfl
    · exact hroom c hc
    · simpa using hroom x (mem_of_getElem? hx)
  · intro v k v' k' r' e e' he he' hvis hvis' hr hr'
    obtain ⟨a, ha', hav, had⟩ := hentry v k e he hvis
    obtain ⟨b, hb', hbv, hbd⟩ := hentry v' k' e' he' hvis'
    exact hs.outRows v k v' k' r' a b ha' hb' hav hbv (had.trans hr) (hbd.trans hr')

end

end

end EdgeTable

end Neug.Storage
