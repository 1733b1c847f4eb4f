import Neug.Storage.EdgeInsert
import Neug.Storage.EdgeResidue
import Neug.Storage.InsertVisibility

/-! What a reader sees of a table at a timestamp, and that later insertions do not change it. -/
namespace Neug.Storage
open List Option

variable {V : Type} {r ts : ℕ}

namespace Table

variable {t t' : Table V} {i j : ℕ} {values : List V}

/-- Writing one cell of every column leaves the other rows, also where it stops early. -/
theorem changeEach_setValue_row (hij : j ≠ i) (cols : List (Column V)) (values : List V) :
    (changeEach (Column.setValue i) cols values).1.map (fun c => c.cells[j]?) =
      cols.map fun c => c.cells[j]? := by
  induction cols generalizing values with
  | nil => cases values <;> rfl
  | cons c cols ih =>
    cases values with
    | nil => rfl
    | cons v values =>
      unfold changeEach Column.setValue
      by_cases hi : i < c.cells.length
      · simp only [if_pos hi, map_cons, getElem?_set_ne (Ne.symm hij)]
        exact congrArg _ (ih values)
      · simp [if_neg hi]

theorem row_insert {p : Table V × Except TableError Unit} (h : t.insert i values = some p)
    (hij : j ≠ i) : p.1.row j = t.row j := by
  unfold insert at h
  split_ifs at h
  cases h
  exact changeEach_setValue_row hij t.columns values

end Table

namespace VertexTimestamp

variable {x y : VertexTimestamp} {v : ℕ} {q : Except VertexError Unit}

/-- An insertion in place reads the entry of the vertex, and succeeds only where it is free. -/
theorem insertVertex_entry (h : x.insertVertex v ts = some (y, q)) (hplace : x.InPlace v ts)
    (hts : ts ≠ 0) : ∃ old, x.initVertexNum ≤ v ∧ x.inserted[v - x.initVertexNum]? = some old ∧
      (q = .ok () → old = deletedTimestamp) := by
  have hv : x.initVertexNum ≤ v := hplace.resolve_left hts
  rw [insertVertex, dif_neg (not_lt.mpr hv), claimEntry] at h
  cases hold : x.inserted[v - x.initVertexNum]? with
  | none => simp [hold] at h
  | some old =>
    refine ⟨old, hv, rfl, ?_⟩
    rintro rfl
    by_contra hne
    simp [hold, hne] at h

end VertexTimestamp

namespace VertexTable

variable {t t' : VertexTable V}

def FreeBeyond (r : ℕ) (t : VertexTable V) : Prop :=
  ∀ u, t.keys.length ≤ u → t.tracker.isVertexValid u r ≠ some true

theorem vertices_congr (hkeys : t.keys <+: t'.keys) (hfree : t.FreeBeyond r)
    (hvalid : ∀ u, t'.tracker.isVertexValid u r = some true ↔
      t.tracker.isVertexValid u r = some true)
    (hrows : ∀ u, t.tracker.isVertexValid u r = some true → t'.row u = t.row u) :
    t'.vertices r = t.vertices r := by
  obtain ⟨tail, htail⟩ := hkeys
  have hlen : t'.keys.length = t.keys.length + tail.length := by
    rw [← htail, length_append]
  have hnew : ((range tail.length).map (t.keys.length + ·)).filter
      (fun u => t'.isValidLid u r == some true) = [] := by
    refine filter_eq_nil_iff.mpr fun u hu hvis => ?_
    obtain ⟨i, hi, rfl⟩ := mem_map.mp hu
    rw [beq_iff_eq, isValidLid, if_pos (by have := mem_range.mp hi; omega), hvalid] at hvis
    exact hfree _ (Nat.le_add_right _ _) hvis
  have hold : (range t.keys.length).filter (fun u => t'.isValidLid u r == some true) =
      (range t.keys.length).filter fun u => t.isValidLid u r == some true := by
    refine filter_congr fun u hu => ?_
    have hu : u < t.keys.length := mem_range.mp hu
    rw [isValidLid, isValidLid, if_pos (by omega), if_pos hu, Bool.eq_iff_iff, beq_iff_eq,
      beq_iff_eq, hvalid]
  unfold vertices
  rw [hlen, range_add, filter_append, hnew, append_nil, hold]
  refine map_congr_left fun u hu => ?_
  obtain ⟨hlt, hseen⟩ := mem_filter.mp hu
  have hlt : u < t.keys.length := mem_range.mp hlt
  rw [beq_iff_eq, isValidLid, if_pos hlt] at hseen
  rw [← htail, getElem?_append_left hlt, hrows u hseen]

variable [DecidableEq V] {id : V} {props : List V}

/-- A reader at `r` sees the same vertices and finds the same keys. -/
structure SameReads (r : ℕ) (t t' : VertexTable V) : Prop where
  vertices : t'.vertices r = t.vertices r
  getIndex : ∀ oid, t'.getIndex oid r = t.getIndex oid r

theorem SameReads.refl (r : ℕ) (t : VertexTable V) : SameReads r t t := ⟨rfl, fun _ => rfl⟩

theorem newLid_of_notMem (h : id ∉ t.keys) : t.newLid id = t.keys.length := by
  rw [newLid, idxOf?_eq_none_iff.mpr h, getD_none]

/-- The table has the keys of an insertion, and a reader at `r` finds the ids as valid as before.
A new id is not valid at `r`. -/
structure Unseen (r : ℕ) (t t' : VertexTable V) (id : V) : Prop where
  keys : t'.keys = t.newKeys id
  valid : ∀ u, t'.tracker.isVertexValid u r = t.tracker.isVertexValid u r
  fresh : id ∉ t.keys → t.tracker.isVertexValid t.keys.length r = some false
  rows : ∀ u, t.tracker.isVertexValid u r = some true → t'.row u = t.row u

namespace Unseen

theorem getIndex_eq (h : Unseen r t t' id) (oid : V) : t'.getIndex oid r = t.getIndex oid r := by
  unfold getIndex
  by_cases hmem : id ∈ t.keys
  · rw [h.keys, newKeys, if_pos hmem]
    simp [h.valid]
  · have hidx : t'.keys.idxOf? oid =
        (t.keys.idxOf? oid).or (if id == oid then some t.keys.length else none) := by
      rw [h.keys, newKeys, if_neg hmem, idxOf?, findIdx?_append, findIdx?_singleton]
      split_ifs <;> simp
    cases hold : t.keys.idxOf? oid with
    | some i => simp [hidx, hold, h.valid]
    | none =>
      rw [hold] at hidx
      split_ifs at hidx
      · simp [hidx, h.valid, h.fresh hmem]
      · simp [hidx]

theorem sameReads (h : Unseen r t t' id) (hfree : t.FreeBeyond r) : SameReads r t t' :=
  ⟨vertices_congr (h.keys ▸ keys_prefix_newKeys t id) hfree (fun u => by rw [h.valid]) h.rows,
    h.getIndex_eq⟩

theorem freeBeyond (h : Unseen r t t' id) (hfree : t.FreeBeyond r) : t'.FreeBeyond r := by
  intro u hu
  rw [h.valid]
  refine hfree u (le_trans ?_ hu)
  rw [h.keys]
  exact (keys_prefix_newKeys t id).length_le

end Unseen

section

variable {res : Except VertexTableError (Option ℕ)} (hts : r < ts) (hmax : ts ≤ deletedTimestamp)
  (hfree : t.FreeBeyond r) (hplace : t.InsertsInPlace id ts)
  (h : addVertex id props ts t = some (res, t'))
include hts hmax hfree hplace h

/-- `AddVertex` at a later timestamp changes nothing, or nothing that a reader at `r` sees. -/
theorem unseen_addVertex : t' = t ∨ Unseen r t t' id := by
  rcases addVertex_run h with ⟨rfl, -⟩ | ⟨y, q, hins, hcase⟩
  · exact .inl rfl
  right
  obtain ⟨old, hv, hold, hclaimed⟩ := VertexTimestamp.insertVertex_entry hins hplace (by omega)
  have hvalid : ∀ u, y.isVertexValid u r = t.tracker.isVertexValid u r := fun u =>
    VertexTimestamp.isVertexValid_insertVertex_later hins hplace (by omega) hts
  have hentry := VertexTimestamp.isVertexValid_of_entry (r := r) hv hold
  have hfresh : id ∉ t.keys → t.tracker.isVertexValid t.keys.length r = some false := by
    intro hmem
    rw [newLid_of_notMem hmem] at hentry
    have hnot := hfree _ le_rfl
    rw [hentry, ne_eq, some_inj, Bool.not_eq_true] at hnot
    rw [hentry, hnot]
  rcases hcase with ⟨rfl, -⟩ | ⟨tab, p, hq, htab, hp, rfl, -⟩
  · exact ⟨rfl, hvalid, hfresh, fun _ _ => rfl⟩
  · refine ⟨rfl, hvalid, hfresh, fun u hu => ?_⟩
    -- the row that is written belongs to an id that nobody sees yet
    have hne : u ≠ t.newLid id := by
      rintro rfl
      rw [hentry, hclaimed hq, some_inj, decide_eq_true_eq] at hu
      omega
    unfold row
    rw [htab]
    exact Table.row_insert hp hne

theorem sameReads_addVertex : SameReads r t t' ∧ t'.FreeBeyond r := by
  rcases unseen_addVertex hts hmax hfree hplace h with rfl | hunseen
  · exact ⟨.refl r _, hfree⟩
  · exact ⟨hunseen.sameReads hfree, hunseen.freeBeyond hfree⟩

end

end VertexTable

namespace MutableCsr

variable {D : Type} {c : MutableCsr D} {v : ℕ} {n : Nbr D}

theorem view_push_later (hv : v < c.size) (hn : r < n.timestamp) :
    (c.push v n).view r = c.view r := by
  refine view_eq_of_rows (size_push c v n).ge fun u => ?_
  rw [list_push hv]
  split_ifs with hu
  · have hhidden : n.visible r = false := decide_eq_false (by omega)
    simp [viewRow, hhidden, hu]
  · rfl

theorem mem_list_push (hv : v < c.size) {u : ℕ} {m : Nbr D} (hm : m ∈ (c.push v n).list u) :
    m ∈ c.list u ∨ m = n := by
  rw [list_push hv] at hm
  split_ifs at hm with hu
  · rw [hu]
    simpa using hm
  · exact .inl hm

end MutableCsr

namespace EdgeTable

variable {t t' : EdgeTable V} {src dst : ℕ} {d : EdgeData V} {edgeData : List V}

def RowsBelow (t : EdgeTable V) : Prop := ∀ i, t.UsesRow i → i < t.tableIdx

/-- A reader at `r` sees the same edges from both ends. -/
structure SameReads (r : ℕ) (t t' : EdgeTable V) : Prop where
  outgoing : t'.outgoing r = t.outgoing r
  incoming : t'.incoming r = t.incoming r

theorem SameReads.refl (r : ℕ) (t : EdgeTable V) : SameReads r t t := ⟨rfl, rfl⟩

theorem entryData_row {i : ℕ} (h : t.entryData edgeData = some (.row i)) :
    i = t.tableIdx ∧ isBundled t.properties = false := by
  unfold entryData at h
  split_ifs at h with hb hlen
  · unfold bundledData at h
    split at h
    · cases h
    · split_ifs at h
      cases h
    · cases h
    · cases h
  · unfold rowData at h
    split at h
    · cases h
    · exact ⟨(EdgeData.row.inj (some.inj h)).symm, Bool.not_eq_true _ ▸ hb⟩
    · cases h

theorem row_writeRow {p : Table V × Except TableError Unit} (h : t.writeRow edgeData = some p)
    {i : ℕ} (hi : i < t.tableIdx) : p.1.row i = t.table.row i := by
  unfold writeRow at h
  split_ifs at h
  · cases h
    rfl
  · exact Table.row_insert h (by omega)

/-- `AddEdge` came some way: it has written none, one or both of the entries, and nothing in the
rows that were in use. -/
structure Advanced (src dst : ℕ) (d : EdgeData V) (ts : ℕ) (t t' : EdgeTable V) : Prop where
  properties : t'.properties = t.properties
  out : t'.outCsr = t.outCsr ∨
    src < t.outCsr.size ∧ t'.outCsr = t.outCsr.push src ⟨dst, ts, d⟩
  inn : t'.inCsr = t.inCsr ∨
    dst < t.inCsr.size ∧ t'.inCsr = t.inCsr.push dst ⟨src, ts, d⟩
  rows : ∀ i < t.tableIdx, t'.table.row i = t.table.row i
  tableIdx : t'.tableIdx = t.claimRow.tableIdx

theorem advanced_addEdge {res : Except EdgeError Unit}
    (h : addEdge src dst edgeData ts t = some (res, t')) :
    t' = t ∨ ∃ d, t.entryData edgeData = some d ∧ Advanced src dst d ts t t' := by
  rcases addEdge_run h with ⟨-, rfl, -⟩ | ⟨d, hd, hcase⟩
  · exact .inl rfl
  refine .inr ⟨d, hd, ?_⟩
  rcases hcase with ⟨-, rfl, -⟩ | ⟨hdst, ⟨-, rfl, -⟩ | ⟨hsrc, p, hp, rfl, -⟩⟩
  · exact ⟨rfl, .inl rfl, .inl rfl, fun _ _ => rfl, rfl⟩
  · exact ⟨rfl, .inl rfl, .inr ⟨hdst, rfl⟩, fun _ _ => rfl, rfl⟩
  · exact ⟨rfl, .inr ⟨hsrc, rfl⟩, .inr ⟨hdst, rfl⟩, fun _ hi => row_writeRow hp hi, rfl⟩

namespace Advanced

theorem sameReads (h : Advanced src dst d ts t t') (hts : r < ts) (hrows : t.RowsBelow) :
    SameReads r t t' := by
  have hused : ∀ i, t.UsesRow i → t'.table.row i = t.table.row i := fun i hi =>
    h.rows i (hrows i hi)
  constructor
  · refine outgoing_congr h.properties hused ?_
    rcases h.out with hout | ⟨hsrc, hout⟩
    · rw [hout]
    · rw [hout, MutableCsr.view_push_later hsrc hts]
  · refine incoming_congr h.properties hused ?_
    rcases h.inn with hinn | ⟨hdst, hinn⟩
    · rw [hinn]
    · rw [hinn, MutableCsr.view_push_later hdst hts]

theorem usesRow (h : Advanced src dst d ts t t') {i : ℕ} (hi : t'.UsesRow i) :
    t.UsesRow i ∨ d = .row i := by
  obtain ⟨v, n, hn, hdata⟩ := hi
  rcases mem_append.mp hn with hn | hn
  · rcases h.out with hout | ⟨hsrc, hout⟩
    · rw [hout] at hn
      exact .inl ⟨v, n, mem_append_left _ hn, hdata⟩
    · rw [hout] at hn
      rcases MutableCsr.mem_list_push hsrc hn with hn | rfl
      · exact .inl ⟨v, n, mem_append_left _ hn, hdata⟩
      · exact .inr hdata
  · rcases h.inn with hinn | ⟨hdst, hinn⟩
    · rw [hinn] at hn
      exact .inl ⟨v, n, mem_append_right _ hn, hdata⟩
    · rw [hinn] at hn
      rcases MutableCsr.mem_list_push hdst hn with hn | rfl
      · exact .inl ⟨v, n, mem_append_right _ hn, hdata⟩
      · exact .inr hdata

theorem rowsBelow (h : Advanced src dst d ts t t') (hd : t.entryData edgeData = some d)
    (hrows : t.RowsBelow) : t'.RowsBelow := by
  intro i hi
  rw [h.tableIdx, claimRow]
  rcases h.usesRow hi with hi | rfl
  · have := hrows i hi
    dsimp only
    split_ifs <;> omega
  · obtain ⟨rfl, hb⟩ := entryData_row hd
    simp [hb]

end Advanced

/-- What `AddEdge` adds is not seen at `r`, whether it succeeds or stops on the way. -/
theorem sameReads_addEdge {res : Except EdgeError Unit} (hts : r < ts) (hrows : t.RowsBelow)
    (h : addEdge src dst edgeData ts t = some (res, t')) : SameReads r t t' ∧ t'.RowsBelow := by
  rcases advanced_addEdge h with rfl | ⟨d, hd, hadv⟩
  · exact ⟨.refl r _, hrows⟩
  · exact ⟨hadv.sameReads hts hrows, hadv.rowsBelow hd hrows⟩

end EdgeTable

end Neug.Storage
