import Neug.Storage.SnapshotReads

/-! When `VertexTable::AddVertex` succeeds, and that it then adds exactly its vertex to what a
reader at its timestamp sees. -/
namespace Neug.Storage
open Neug.Lib List Option Call

variable {V : Type} {ts : ℕ}

namespace VertexTimestamp

variable {x y : VertexTimestamp} {u v : ℕ}

/-- The tracker with an array that reaches down to `v`. -/
def reachDown (x : VertexTimestamp) (v : ℕ) : VertexTimestamp :=
  if h : v < x.initVertexNum then x.rebase v h else x

/-- The entry that an insertion claims is free. If the array does not reach down to the vertex,
that is the first entry of the array. -/
def Claimable (x : VertexTimestamp) (v : ℕ) : Prop :=
  if v < x.initVertexNum then x.inserted.headD deletedTimestamp = deletedTimestamp
  else x.inserted[v - x.initVertexNum]? = some deletedTimestamp

instance (x : VertexTimestamp) (v : ℕ) : Decidable (x.Claimable v) := by
  unfold Claimable
  infer_instance

/-- The timestamp that `u` has once the array has slid down to `v`. -/
def slidEntry (x : VertexTimestamp) (v u : ℕ) : ℕ := x.inserted.getD (u - v) deletedTimestamp

/-- The vertices below `n` are as visible as before after the array has slid down to `v`. -/
def Undisturbed (x : VertexTimestamp) (n v ts : ℕ) : Prop :=
  v < x.initVertexNum → ∀ u < n, v < u →
    (x.slidEntry v u ≤ ts ↔ x.isVertexValid u ts = some true)

theorem inserted_rebase (hv : v < x.initVertexNum) : (x.rebase v hv).inserted =
    x.inserted ++ List.replicate (x.initVertexNum - v) deletedTimestamp := by
  have hsize := x.size
  have hmin : min (x.maxVertexNum - v) x.inserted.length = x.inserted.length := by omega
  have hrest : x.maxVertexNum - v - x.inserted.length = x.initVertexNum - v := by omega
  simp [rebase, resizeInserted, hmin, hrest]

theorem insertVertex_eq (hts : ts ≠ 0) : x.insertVertex v ts = (x.reachDown v).claimEntry v ts := by
  unfold insertVertex reachDown
  split_ifs
  · rfl
  · rfl

theorem initVertexNum_reachDown_le : (x.reachDown v).initVertexNum ≤ v := by
  unfold reachDown
  split_ifs with hv
  · exact le_rfl
  · exact not_lt.mp hv

theorem claimable_iff : x.Claimable v ↔
    (x.reachDown v).inserted[v - (x.reachDown v).initVertexNum]? = some deletedTimestamp := by
  unfold Claimable reachDown
  split_ifs with hv
  · rw [inserted_rebase hv, show (x.rebase v hv).initVertexNum = v from rfl]
    obtain ⟨k, hk⟩ := Nat.exists_eq_succ_of_ne_zero (Nat.sub_ne_zero_of_lt hv)
    rw [hk]
    cases x.inserted <;> simp
  · rfl

theorem claimable_of_insertVertex (h : x.insertVertex v ts = some (y, .ok ())) (hts : ts ≠ 0) :
    x.Claimable v ∧ y = (x.reachDown v).setEntry v ts := by
  rw [insertVertex_eq hts, claimEntry] at h
  rw [claimable_iff]
  cases hold : (x.reachDown v).inserted[v - (x.reachDown v).initVertexNum]? with
  | none => simp [hold] at h
  | some old =>
    simp only [hold] at h
    split_ifs at h with hdel
    · rw [hdel]
      exact ⟨rfl, (Prod.mk.inj (some.inj h)).1.symm⟩
    · simp at h

theorem isVertexValid_claimed (h : x.Claimable v) :
    ((x.reachDown v).setEntry v ts).isVertexValid v ts = some true := by
  rw [isVertexValid_setEntry_self initVertexNum_reachDown_le
    (List.getElem?_eq_some_iff.mp (claimable_iff.mp h)).1]
  simp

theorem isVertexValid_rebase (hv : v < x.initVertexNum) (hu : v < u) (hts : ts < deletedTimestamp) :
    (x.rebase v hv).isVertexValid u ts = some true ↔ x.slidEntry v u ≤ ts := by
  have hsize := x.size
  have hread : (x.rebase v hv).isVertexValid u ts = if x.maxVertexNum < u then some false else
      ((x.rebase v hv).inserted[u - v]?).map fun old => decide (old ≤ ts) := by
    unfold isVertexValid
    rw [if_pos (show (x.rebase v hv).initVertexNum ≤ u from hu.le)]
    rfl
  rw [hread, inserted_rebase hv, slidEntry, getD_eq_getElem?_getD]
  by_cases hlt : u - v < x.inserted.length
  · rw [getElem?_append_left hlt, if_neg (by omega), getElem?_eq_getElem hlt]
    simp
  · have hfree : ¬ (x.inserted[u - v]?).getD deletedTimestamp ≤ ts := by
      rw [getElem?_eq_none (by omega)]
      exact not_le.mpr hts
    refine iff_of_false ?_ hfree
    rw [getElem?_append_right (by omega), getElem?_replicate]
    split_ifs
    · simp
    · simp [hts]
    · simp

theorem isVertexValid_claimed_ne (hne : u ≠ v) (hts : ts < deletedTimestamp) :
    ((x.reachDown v).setEntry v ts).isVertexValid u ts = some true ↔
      if v < x.initVertexNum ∧ v < u then x.slidEntry v u ≤ ts
      else x.isVertexValid u ts = some true := by
  rw [isVertexValid_setEntry_ne initVertexNum_reachDown_le hne]
  unfold reachDown
  split_ifs with hv hcond hcond
  · exact isVertexValid_rebase hv hcond.2 hts
  · -- the vertices below keep their place in the removed set
    have hlt : u < v := by omega
    unfold isVertexValid rebase
    simp [if_neg (not_le.mpr hlt), if_neg (not_le.mpr (hlt.trans hv))]
  · exact absurd hcond.1 hv
  · rfl

end VertexTimestamp

namespace Table

variable {t t' : Table V} {i : ℕ} {values : List V}

def TakesRow (t : Table V) (i : ℕ) (values : List V) : Prop :=
  values.length = t.colNum ∧ ∀ c ∈ t.columns, i < c.cells.length

instance (t : Table V) (i : ℕ) (values : List V) : Decidable (t.TakesRow i values) :=
  inferInstanceAs (Decidable (_ ∧ _))

theorem changeEach_setValue_ok_iff {cols : List (Column V)} (hlen : values.length = cols.length) :
    (changeEach (Column.setValue i) cols values).2 = .ok () ↔ ∀ c ∈ cols, i < c.cells.length := by
  induction cols generalizing values with
  | nil =>
    simp [changeEach]
  | cons c cols ih =>
    obtain ⟨v, values, rfl⟩ := exists_cons_of_length_eq_add_one hlen
    rw [changeEach, Column.setValue]
    by_cases hi : i < c.cells.length
    · simp [if_pos hi, ih (Nat.succ.inj hlen), and_iff_right hi]
    · simp [hi]

theorem changeEach_setValue_row_self {cols : List (Column V)}
    (hlen : values.length = cols.length) (hi : ∀ c ∈ cols, i < c.cells.length) :
    (changeEach (Column.setValue i) cols values).1.map (fun c => c.cells[i]?) =
      values.map some := by
  induction cols generalizing values with
  | nil =>
    obtain rfl := length_eq_zero_iff.mp hlen
    rfl
  | cons c cols ih =>
    obtain ⟨v, values, rfl⟩ := exists_cons_of_length_eq_add_one hlen
    obtain ⟨hc, hcols⟩ := forall_mem_cons.mp hi
    rw [changeEach, Column.setValue]
    simp only [if_pos hc, map_cons, getElem?_set_self hc]
    rw [ih (Nat.succ.inj hlen) hcols]

theorem insert_of_takesRow (h : t.TakesRow i values) :
    ∃ t', t.insert i values = some (t', .ok ()) ∧ t'.row i = values.map some := by
  refine ⟨{ t with columns := (changeEach (Column.setValue i) t.columns values).1 }, ?_,
    changeEach_setValue_row_self h.1 h.2⟩
  rw [insert, if_neg (not_not.mpr h.1)]
  dsimp only
  rw [(changeEach_setValue_ok_iff h.1).mpr h.2]

theorem takesRow_of_insert (h : t.insert i values = some (t', .ok ())) : t.TakesRow i values := by
  unfold insert at h
  split_ifs at h with hlen
  have hlen : values.length = t.columns.length := not_not.mp hlen
  exact ⟨hlen, (changeEach_setValue_ok_iff hlen).mp (Prod.mk.inj (some.inj h)).2⟩

theorem row_insert_self (h : t.insert i values = some (t', .ok ())) : t'.row i = values.map some := by
  obtain ⟨t'', hins, hrow⟩ := insert_of_takesRow (takesRow_of_insert h)
  obtain rfl : t'' = t' := (Prod.mk.inj (some.inj (hins.symm.trans h))).1
  exact hrow

theorem TakesRow.lt_size (h : t.TakesRow i values) (hcol : 0 < t.colNum) : i < t.size := by
  obtain ⟨c, cols, hcols⟩ := exists_cons_of_length_pos hcol
  rw [size, hcols]
  exact h.2 c (hcols ▸ mem_cons_self)

end Table

namespace VertexTable

variable {t t' : VertexTable V}

def visibleLids (t : VertexTable V) (ts : ℕ) : List ℕ :=
  (List.range t.keys.length).filter fun lid => t.isValidLid lid ts == some true

theorem map_fst_vertices (t : VertexTable V) (ts : ℕ) :
    (t.vertices ts).map Prod.fst = t.visibleLids ts := by
  unfold vertices visibleLids
  rw [List.map_map]
  exact map_id _

theorem mem_visibleLids {u : ℕ} : u ∈ t.visibleLids ts ↔
    u < t.keys.length ∧ t.tracker.isVertexValid u ts = some true := by
  unfold visibleLids isValidLid
  rw [mem_filter, mem_range, beq_iff_eq]
  refine and_congr_right fun hu => ?_
  rw [if_pos hu]

theorem nodup_visibleLids : (t.visibleLids ts).Nodup := nodup_range.filter _

variable [DecidableEq V] {id : V} {props : List V}

/-- What `AddVertex` needs of the table: room, a key that is not visible, a free entry in the
tracker, a row, and that no other vertex is disturbed if the array of the tracker slides. -/
structure Accepts (t : VertexTable V) (id : V) (props : List V) (ts : ℕ) : Prop where
  room : t.keys.length < t.capacity
  absent : id ∈ t.keys → t.tracker.isVertexValid (t.newLid id) ts = some false
  free : t.tracker.Claimable (t.newLid id)
  row : ∃ tab, t.table = some tab ∧ tab.TakesRow (t.newLid id) props
  undisturbed : t.tracker.Undisturbed t.keys.length (t.newLid id) ts

/-- A reader at `ts` sees one vertex more, with this key and these properties. -/
def Gains (ts : ℕ) (id : V) (props : List V) (t t' : VertexTable V) : Prop :=
  ∃ lid, (t'.vertices ts).Perm ((lid, some id, props.map some) :: t.vertices ts)

theorem newLid_lt_newKeys : t.newLid id < (t.newKeys id).length := by
  by_cases hmem : id ∈ t.keys
  · obtain ⟨i, hi⟩ := isSome_iff_exists.mp (isSome_idxOf?.mpr hmem)
    rw [newLid, hi, newKeys, if_pos hmem]
    exact (idxOf?_eq_some_iff.mp hi).1
  · rw [newLid_of_notMem hmem, newKeys, if_neg hmem, length_append]
    exact Nat.lt_succ_self _

theorem getElem?_newKeys_newLid : (t.newKeys id)[t.newLid id]? = some id := by
  by_cases hmem : id ∈ t.keys
  · obtain ⟨i, hi⟩ := isSome_iff_exists.mp (isSome_idxOf?.mpr hmem)
    obtain ⟨hlt, heq, -⟩ := idxOf?_eq_some_iff.mp hi
    rw [newLid, hi, getD_some, newKeys, if_pos hmem, getElem?_eq_getElem hlt, heq]
  · rw [newLid_of_notMem hmem, newKeys, if_neg hmem, getElem?_append_right le_rfl, Nat.sub_self]
    rfl

theorem lt_newKeys_iff {u : ℕ} (hne : u ≠ t.newLid id) :
    u < (t.newKeys id).length ↔ u < t.keys.length := by
  by_cases hmem : id ∈ t.keys
  · rw [newKeys, if_pos hmem]
  · rw [newLid_of_notMem hmem] at hne
    rw [newKeys, if_neg hmem, length_append, length_singleton]
    omega

/-- A key that has been entered at `ts`, with its row. -/
structure Entered (ts : ℕ) (id : V) (props : List V) (t t' : VertexTable V) : Prop where
  absent : id ∈ t.keys → t.tracker.isVertexValid (t.newLid id) ts = some false
  keys : t'.keys = t.newKeys id
  free : t.tracker.Claimable (t.newLid id)
  tracker : t'.tracker = (t.tracker.reachDown (t.newLid id)).setEntry (t.newLid id) ts
  row : t'.row (t.newLid id) = props.map some
  others : ∀ u ≠ t.newLid id, t'.row u = t.row u

namespace Entered

section

variable (h : Entered ts id props t t')
include h

theorem newLid_notMem : t.newLid id ∉ t.visibleLids ts := by
  intro hmem
  obtain ⟨hlt, hvalid⟩ := mem_visibleLids.mp hmem
  by_cases hid : id ∈ t.keys
  · rw [h.absent hid] at hvalid
    cases hvalid
  · rw [newLid_of_notMem hid] at hlt
    exact lt_irrefl _ hlt

theorem newLid_mem : t.newLid id ∈ t'.visibleLids ts := by
  rw [mem_visibleLids, h.keys, h.tracker]
  exact ⟨newLid_lt_newKeys, VertexTimestamp.isVertexValid_claimed h.free⟩

theorem undisturbed_iff (hts : ts < deletedTimestamp) :
    t.tracker.Undisturbed t.keys.length (t.newLid id) ts ↔
      ∀ u ≠ t.newLid id, u ∈ t'.visibleLids ts ↔ u ∈ t.visibleLids ts := by
  constructor
  · intro hsame u hne
    rw [mem_visibleLids, mem_visibleLids, h.keys, h.tracker, lt_newKeys_iff hne,
      VertexTimestamp.isVertexValid_claimed_ne hne hts]
    refine and_congr_right fun hu => ?_
    split_ifs with hcond
    · exact hsame hcond.1 u hu hcond.2
    · rfl
  · intro hsame hinit u hu hlt
    have hiff := hsame u (by omega)
    rw [mem_visibleLids, mem_visibleLids, h.keys, h.tracker, lt_newKeys_iff (by omega),
      VertexTimestamp.isVertexValid_claimed_ne (by omega) hts, if_pos ⟨hinit, hlt⟩] at hiff
    simpa only [hu, true_and] using hiff

theorem vertices_eq (hperm : (t'.visibleLids ts).Perm (t.newLid id :: t.visibleLids ts)) :
    (t'.vertices ts).Perm ((t.newLid id, some id, props.map some) :: t.vertices ts) := by
  have hmap := hperm.map fun lid => (lid, t'.keys[lid]?, t'.row lid)
  rw [map_cons, h.keys, getElem?_newKeys_newLid, h.row] at hmap
  have hold : (t.visibleLids ts).map (fun lid => (lid, (t.newKeys id)[lid]?, t'.row lid)) =
      t.vertices ts := by
    refine map_congr_left fun u hu => ?_
    have hne : u ≠ t.newLid id := fun heq => h.newLid_notMem (heq ▸ hu)
    obtain ⟨tail, htail⟩ := keys_prefix_newKeys t id
    rw [h.others u hne, ← htail, getElem?_append_left (mem_visibleLids.mp hu).1]
  rw [hold] at hmap
  have hnew : t'.vertices ts =
      (t'.visibleLids ts).map fun lid => (lid, (t.newKeys id)[lid]?, t'.row lid) := by
    rw [← h.keys]
    rfl
  rw [hnew]
  exact hmap

theorem gains_iff (hts : ts < deletedTimestamp) :
    Gains ts id props t t' ↔ t.tracker.Undisturbed t.keys.length (t.newLid id) ts := by
  rw [h.undisturbed_iff hts]
  constructor
  · rintro ⟨lid, hperm⟩ u hne
    have hlids := hperm.map Prod.fst
    rw [map_cons, map_fst_vertices, map_fst_vertices] at hlids
    have hlid : t.newLid id = lid := by
      rcases mem_cons.mp (hlids.mem_iff.mp h.newLid_mem) with heq | hmem
      · exact heq
      · exact absurd hmem h.newLid_notMem
    rw [hlids.mem_iff, mem_cons, ← hlid]
    exact or_iff_right hne
  · intro hsame
    refine ⟨t.newLid id, h.vertices_eq ?_⟩
    have hnodup : (t.newLid id :: t.visibleLids ts).Nodup :=
      nodup_cons.mpr ⟨h.newLid_notMem, nodup_visibleLids⟩
    rw [perm_ext_iff_of_nodup nodup_visibleLids hnodup]
    intro u
    rw [mem_cons]
    by_cases hne : u = t.newLid id
    · rw [hne]
      exact iff_of_true h.newLid_mem (.inl rfl)
    · rw [hsame u hne]
      exact (or_iff_right hne).symm

end

end Entered

omit [DecidableEq V] in
theorem claimLid_apply {vid : ℕ} (hfree : t.tracker.Claimable vid) (hts : ts ≠ 0) :
    (onTracker (fun x => x.insertVertex vid ts) >>= fun _ => pure vid) t =
      some (.ok vid, { t with tracker := (t.tracker.reachDown vid).setEntry vid ts }) := by
  rw [Call.bind_apply, onTracker, VertexTimestamp.insertVertex_eq hts,
    VertexTimestamp.claimEntry, VertexTimestamp.claimable_iff.mp hfree]
  rfl

theorem insertVertexPk_apply (hts : ts ≠ 0)
    (habsent : id ∈ t.keys → t.tracker.isVertexValid (t.newLid id) ts = some false)
    (hfree : t.tracker.Claimable (t.newLid id)) :
    insertVertexPk id ts t = some (.ok (t.newLid id), { t with
      keys := t.newKeys id
      tracker := (t.tracker.reachDown (t.newLid id)).setEntry (t.newLid id) ts }) := by
  rw [insertVertexPk]
  by_cases hmem : id ∈ t.keys
  · obtain ⟨vid, hvid⟩ := isSome_iff_exists.mp (isSome_idxOf?.mpr hmem)
    have hlid : t.newLid id = vid := by rw [newLid, hvid, getD_some]
    rw [hlid] at habsent hfree ⊢
    simp only [hvid, reviveVertex, read_bind]
    rw [defined_bind_eq_some]
    refine ⟨false, habsent hmem, ?_⟩
    rw [newKeys, if_pos hmem]
    exact claimLid_apply hfree hts
  · have hnone : t.keys.idxOf? id = none := idxOf?_eq_none_iff.mpr hmem
    have hlid := newLid_of_notMem hmem
    rw [hlid] at hfree ⊢
    simp only [hnone, read_bind]
    rw [newKeys, if_neg hmem]
    exact claimLid_apply hfree hts

theorem absent_of_insertVertexPk {vid : ℕ} (h : insertVertexPk id ts t = some (.ok vid, t')) :
    id ∈ t.keys → t.tracker.isVertexValid (t.newLid id) ts = some false := by
  intro hmem
  obtain ⟨lid, hlid⟩ := isSome_iff_exists.mp (isSome_idxOf?.mpr hmem)
  rw [insertVertexPk] at h
  simp only [hlid, read_bind] at h
  obtain ⟨valid, hvalid, h⟩ := defined_bind_eq_some.mp h
  rw [newLid, hlid, getD_some, hvalid]
  cases valid with
  | true => simp at h
  | false => rfl

omit [DecidableEq V] in
theorem insertRow_apply {vid : ℕ} {tab : Table V} (htab : t.table = some tab)
    (hrow : tab.TakesRow vid props) : ∃ tab', tab.insert vid props = some (tab', .ok ()) ∧
      insertRow vid props t = some (.ok (), { t with table := some tab' }) := by
  obtain ⟨tab', hins, -⟩ := Table.insert_of_takesRow hrow
  refine ⟨tab', hins, ?_⟩
  rw [insertRow, read_bind, defined_bind_eq_some]
  refine ⟨tab, htab, ?_⟩
  rw [if_neg fun hsize => not_le.mpr (hrow.lt_size hsize.1) hsize.2, onTable, htab, bind_some, hins]
  rfl

theorem entered_of_addVertex {lid : ℕ} (hts : ts ≠ 0)
    (h : addVertex id props ts t = some (.ok (some lid), t')) :
    t.keys.length < t.capacity ∧ Entered ts id props t t' ∧
      ∃ tab, t.table = some tab ∧ tab.TakesRow (t.newLid id) props := by
  rw [addVertex, read_bind] at h
  split_ifs at h with hfull
  · simp at h
  refine ⟨not_le.mp hfull, ?_⟩
  rcases bind_cases h with ⟨vid, s, hpk, hrest⟩ | ⟨e, -, he⟩
  · have habsent := absent_of_insertVertexPk hpk
    rcases insertVertexPk_run hpk with ⟨-, e, he⟩ | ⟨y, q, hins, rfl, ⟨rfl, hvid⟩ | ⟨e, -, he⟩⟩
    · cases he
    · obtain rfl : vid = t.newLid id := Except.ok.inj hvid
      obtain ⟨hfree, rfl⟩ := VertexTimestamp.claimable_of_insertVertex hins hts
      rcases bind_cases hrest with ⟨u, s', hrow, hpure⟩ | ⟨e, -, he⟩
      · obtain ⟨tab, ⟨tab', q⟩, htab, hp, rfl, hr⟩ := insertRow_run hrow
        obtain rfl : q = .ok () := by
          cases q with
          | ok b => rfl
          | error e => cases hr
        cases hpure
        refine ⟨⟨habsent, rfl, hfree, rfl, Table.row_insert_self hp, fun u hne => ?_⟩,
          tab, htab, Table.takesRow_of_insert hp⟩
        have hkept := Table.row_insert hp hne
        unfold row
        rw [htab]
        exact hkept
      · cases he
    · cases he
  · cases he

theorem addVertex_of_accepts (hts : ts ≠ 0) (h : t.Accepts id props ts) :
    ∃ t', addVertex id props ts t = some (.ok (some (t.newLid id)), t') := by
  obtain ⟨tab, htab, hrow⟩ := h.row
  have hpk := insertVertexPk_apply hts h.absent h.free
  obtain ⟨tab', -, hins⟩ := insertRow_apply (t := { t with
    keys := t.newKeys id
    tracker := (t.tracker.reachDown (t.newLid id)).setEntry (t.newLid id) ts }) htab hrow
  rw [addVertex, read_bind, if_neg (not_le.mpr h.room), Call.bind_apply, hpk]
  dsimp only
  rw [Call.bind_apply, hins]
  exact ⟨_, rfl⟩

/-- `AddVertex` succeeds and adds exactly its vertex where the table accepts it. -/
theorem addVertex_gains_iff (hts : ts ≠ 0) (hmax : ts < deletedTimestamp) :
    (∃ lid t', addVertex id props ts t = some (.ok (some lid), t') ∧ Gains ts id props t t') ↔
      t.Accepts id props ts := by
  constructor
  · rintro ⟨lid, t', hadd, hgains⟩
    obtain ⟨hroom, hentered, hrow⟩ := entered_of_addVertex hts hadd
    exact ⟨hroom, hentered.absent, hentered.free, hrow, (hentered.gains_iff hmax).mp hgains⟩
  · intro h
    obtain ⟨t', hadd⟩ := addVertex_of_accepts hts h
    obtain ⟨-, hentered, -⟩ := entered_of_addVertex hts hadd
    exact ⟨_, t', hadd, (hentered.gains_iff hmax).mpr h.undisturbed⟩

end VertexTable

end Neug.Storage
