import Neug.Storage.PropertyGraph

/-! What the insertion of a vertex does to a vertex table, and what it leaves of the vertices
that were there before. -/
namespace Neug.Storage
open Neug.Lib List Option Call

namespace VertexTimestamp

variable {x y : VertexTimestamp} {u v ts r : ℕ} {q : Except VertexError Unit}

def InPlace (x : VertexTimestamp) (v ts : ℕ) : Prop := ts = 0 ∨ x.initVertexNum ≤ v

instance (x : VertexTimestamp) (v ts : ℕ) : Decidable (x.InPlace v ts) :=
  inferInstanceAs (Decidable (ts = 0 ∨ x.initVertexNum ≤ v))

theorem insertVertex_inPlace (h : x.insertVertex v ts = some (y, q)) (hplace : x.InPlace v ts) :
    y = x ∨ x.initVertexNum ≤ v ∧ x.inserted[v - x.initVertexNum]? = some deletedTimestamp ∧
      y = x.setEntry v ts := by
  unfold insertVertex at h
  split_ifs at h with hlt hzero
  · left
    exact (Prod.mk.inj (some_inj.mp h)).1.symm
  · rcases hplace with hzero' | hge
    · exact absurd hzero' hzero
    · omega
  · unfold claimEntry at h
    cases hold : x.inserted[v - x.initVertexNum]? with
    | none => simp [hold] at h
    | some old =>
      simp only [hold] at h
      split_ifs at h with hdel
      · right
        exact ⟨Nat.le_of_not_lt hlt, by rw [hdel], (Prod.mk.inj (some_inj.mp h)).1.symm⟩
      · left
        exact (Prod.mk.inj (some_inj.mp h)).1.symm

theorem isVertexValid_setEntry_ne (hv : x.initVertexNum ≤ v) (hne : u ≠ v) :
    (x.setEntry v ts).isVertexValid u r = x.isVertexValid u r := by
  unfold isVertexValid setEntry
  simp only
  split_ifs with hmax hinit
  · rfl
  · rw [getElem?_set_ne (by omega)]
  · rfl

theorem isVertexValid_of_entry {old : ℕ} (hv : x.initVertexNum ≤ v)
    (hold : x.inserted[v - x.initVertexNum]? = some old) :
    x.isVertexValid v r = some (decide (old ≤ r)) := by
  have hsize := x.size
  have hlt := (List.getElem?_eq_some_iff.mp hold).1
  rw [isVertexValid, if_neg (by omega), if_pos hv, hold, map_some]

theorem isVertexValid_setEntry_self (hv : x.initVertexNum ≤ v)
    (hlt : v - x.initVertexNum < x.inserted.length) :
    (x.setEntry v ts).isVertexValid v r = some (decide (ts ≤ r)) :=
  isVertexValid_of_entry hv (getElem?_set_self hlt)

section

variable (h : x.insertVertex v ts = some (y, q)) (hplace : x.InPlace v ts)
  (hr : r < deletedTimestamp)
include h hplace hr

theorem isVertexValid_insertVertex
    (hvalid : x.isVertexValid u r = some true) : y.isVertexValid u r = some true := by
  rcases insertVertex_inPlace h hplace with rfl | ⟨hv, hold, rfl⟩
  · exact hvalid
  · by_cases hne : u = v
    · rw [hne, isVertexValid_of_entry hv hold, some_inj, decide_eq_true_eq] at hvalid
      omega
    · rw [isVertexValid_setEntry_ne hv hne]
      exact hvalid

theorem isVertexValid_insertVertex_later (hts : r < ts) :
    y.isVertexValid u r = x.isVertexValid u r := by
  rcases insertVertex_inPlace h hplace with rfl | ⟨hv, hold, rfl⟩
  · rfl
  · by_cases hne : u = v
    · rw [hne, isVertexValid_of_entry hv hold,
        isVertexValid_setEntry_self hv (List.getElem?_eq_some_iff.mp hold).1,
        decide_eq_false (by omega), decide_eq_false (by omega)]
    · exact isVertexValid_setEntry_ne hv hne

end

end VertexTimestamp

namespace VertexTable

variable {V : Type} {t t' : VertexTable V} {ts : ℕ} {r : Except VertexTableError Unit}

theorem onTracker_run {f : VertexTimestamp → Option (VertexTimestamp × Except VertexError Unit)}
    (h : onTracker f t = some (r, t')) :
    ∃ y q, f t.tracker = some (y, q) ∧ t' = { t with tracker := y } ∧
      r = q.mapError .tracker := by
  obtain ⟨⟨y, q⟩, hf, heq⟩ := map_eq_some_iff.mp h
  exact ⟨y, q, hf, (Prod.mk.inj heq).2.symm, (Prod.mk.inj heq).1.symm⟩

theorem onTable_run {f : Table V → Option (Table V × Except TableError Unit)}
    (h : onTable f t = some (r, t')) :
    ∃ tab p, t.table = some tab ∧ f tab = some p ∧ t' = { t with table := some p.1 } ∧
      r = p.2.mapError .table := by
  obtain ⟨p, hp, heq⟩ := map_eq_some_iff.mp h
  obtain ⟨tab, htab, hf⟩ := bind_eq_some_iff.mp hp
  exact ⟨tab, p, htab, hf, (Prod.mk.inj heq).2.symm, (Prod.mk.inj heq).1.symm⟩

theorem claimLid_run {vid : ℕ} {r : Except VertexTableError ℕ}
    (h : (onTracker (fun x => x.insertVertex vid ts) >>= fun _ => pure vid) t = some (r, t')) :
    ∃ y q, t.tracker.insertVertex vid ts = some (y, q) ∧ t' = { t with tracker := y } ∧
      (q = .ok () ∧ r = .ok vid ∨ ∃ e, q = .error e ∧ r = .error (.tracker e)) := by
  rcases bind_cases h with ⟨a, s', hrun, hpure⟩ | ⟨e, hrun, rfl⟩
  · obtain ⟨y, q, hins, rfl, hq⟩ := onTracker_run hrun
    rw [Call.pure_apply, some_inj, Prod.mk.injEq] at hpure
    refine ⟨y, q, hins, hpure.2.symm, .inl ⟨?_, hpure.1.symm⟩⟩
    cases q with
    | ok b => rfl
    | error e => exact absurd hq (by simp [Except.mapError])
  · obtain ⟨y, q, hins, rfl, hq⟩ := onTracker_run hrun
    cases q with
    | ok b => exact absurd hq (by simp [Except.mapError])
    | error e' =>
      simp only [Except.mapError, Except.error.injEq] at hq
      exact ⟨y, .error e', hins, rfl, .inr ⟨e', rfl, by rw [hq]⟩⟩

variable [DecidableEq V] {id : V} {props : List V}

def newLid (t : VertexTable V) (id : V) : ℕ := (t.keys.idxOf? id).getD t.keys.length

def newKeys (t : VertexTable V) (id : V) : List V :=
  if id ∈ t.keys then t.keys else t.keys ++ [id]

theorem keys_prefix_newKeys (t : VertexTable V) (id : V) : t.keys <+: t.newKeys id := by
  unfold newKeys
  split_ifs
  · exact prefix_rfl
  · exact prefix_append _ _

/-- `insert_vertex_pk`: a valid key is refused, and otherwise the tracker decides. -/
theorem insertVertexPk_run {r : Except VertexTableError ℕ}
    (h : insertVertexPk id ts t = some (r, t')) : (t' = t ∧ ∃ e, r = .error e) ∨
      ∃ y q, t.tracker.insertVertex (t.newLid id) ts = some (y, q) ∧
        t' = { t with keys := t.newKeys id, tracker := y } ∧
        (q = .ok () ∧ r = .ok (t.newLid id) ∨ ∃ e, q = .error e ∧ r = .error (.tracker e)) := by
  unfold insertVertexPk at h
  cases hidx : t.keys.idxOf? id with
  | none =>
    simp only [hidx, read_bind] at h
    obtain ⟨y, q, hins, rfl, hr⟩ := claimLid_run h
    have hmem : id ∉ t.keys := idxOf?_eq_none_iff.mp hidx
    refine .inr ⟨y, q, ?_, ?_, ?_⟩
    · rw [newLid, hidx]
      exact hins
    · rw [newKeys, if_neg hmem]
    · rw [newLid, hidx]
      exact hr
  | some vid =>
    simp only [hidx, read_bind] at h
    obtain ⟨valid, hvalid, h⟩ := defined_bind_eq_some.mp h
    have hmem : id ∈ t.keys := by
      by_contra hne
      rw [idxOf?_eq_none_iff.mpr hne] at hidx
      cases hidx
    cases valid with
    | true =>
      simp only [if_true, raise_apply, some_inj, Prod.mk.injEq] at h
      exact .inl ⟨h.2.symm, _, h.1.symm⟩
    | false =>
      obtain ⟨y, q, hins, rfl, hr⟩ := claimLid_run (by simpa using h)
      refine .inr ⟨y, q, ?_, ?_, ?_⟩
      · rw [newLid, hidx]
        exact hins
      · rw [newKeys, if_pos hmem]
      · rw [newLid, hidx]
        exact hr

omit [DecidableEq V] in
theorem insertRow_run {vid : ℕ} (h : insertRow vid props t = some (r, t')) :
    ∃ tab p, t.table = some tab ∧ tab.insert vid props = some p ∧
      t' = { t with table := some p.1 } ∧ r = p.2.mapError .table := by
  unfold insertRow at h
  rw [read_bind] at h
  obtain ⟨tab, -, h⟩ := defined_bind_eq_some.mp h
  split_ifs at h
  · cases h
  · exact onTable_run h

/-- What `AddVertex` may do: nothing, enter the key and then fail, or enter the key and write the
row, which may fail as well. -/
theorem addVertex_run {r : Except VertexTableError (Option ℕ)}
    (h : addVertex id props ts t = some (r, t')) : (t' = t ∧ r ≠ .ok (some (t.newLid id))) ∨
      ∃ y q, t.tracker.insertVertex (t.newLid id) ts = some (y, q) ∧
        ((t' = { t with keys := t.newKeys id, tracker := y } ∧ ∃ e, r = .error e) ∨
          ∃ tab p, q = .ok () ∧ t.table = some tab ∧ tab.insert (t.newLid id) props = some p ∧
            t' = { t with keys := t.newKeys id, tracker := y, table := some p.1 } ∧
            (p.2 = .ok () ∧ r = .ok (some (t.newLid id)) ∨ ∃ e, r = .error e)) := by
  unfold addVertex at h
  rw [read_bind] at h
  split_ifs at h with hfull
  · rw [Call.pure_apply, some_inj, Prod.mk.injEq] at h
    refine .inl ⟨h.2.symm, ?_⟩
    rw [← h.1]
    simp
  · rcases bind_cases h with ⟨vid, s, hpk, h⟩ | ⟨e, hpk, rfl⟩
    · rcases insertVertexPk_run hpk with ⟨-, e, he⟩ | ⟨y, q, hins, rfl, hres⟩
      · cases he
      · rcases hres with ⟨rfl, hvid⟩ | ⟨e, -, he⟩
        · obtain rfl : vid = t.newLid id := Except.ok.inj hvid
          refine .inr ⟨y, .ok (), hins, .inr ?_⟩
          rcases bind_cases h with ⟨u, s', hrow, hpure⟩ | ⟨e, hrow, rfl⟩
          · obtain ⟨tab, p, htab, hp, rfl, hr⟩ := insertRow_run hrow
            rw [Call.pure_apply, some_inj, Prod.mk.injEq] at hpure
            refine ⟨tab, p, rfl, htab, hp, hpure.2.symm, .inl ⟨?_, hpure.1.symm⟩⟩
            cases hp2 : p.2 with
            | ok b => rfl
            | error e =>
              rw [hp2] at hr
              exact absurd hr (by simp [Except.mapError])
          · obtain ⟨tab, p, htab, hp, rfl, -⟩ := insertRow_run hrow
            exact ⟨tab, p, rfl, htab, hp, rfl, .inr ⟨e, rfl⟩⟩
        · cases he
    · rcases insertVertexPk_run hpk with ⟨rfl, -⟩ | ⟨y, q, hins, rfl, -⟩
      · exact .inl ⟨rfl, by simp⟩
      · exact .inr ⟨y, q, hins, .inl ⟨rfl, e, rfl⟩⟩

def InsertsInPlace (t : VertexTable V) (id : V) (ts : ℕ) : Prop :=
  t.tracker.InPlace (t.newLid id) ts

instance (t : VertexTable V) (id : V) (ts : ℕ) : Decidable (t.InsertsInPlace id ts) :=
  inferInstanceAs (Decidable (t.tracker.InPlace (t.newLid id) ts))

/-- Later tables keep the keys, and the vertices that are valid at `r`. -/
structure Retains (r : ℕ) (t t' : VertexTable V) : Prop where
  keys : t.keys <+: t'.keys
  valid : ∀ u, t.tracker.isVertexValid u r = some true → t'.tracker.isVertexValid u r = some true

omit [DecidableEq V] in
theorem Retains.refl (r : ℕ) (t : VertexTable V) : Retains r t t := ⟨prefix_rfl, fun _ => id⟩

theorem retains_addVertex {r : ℕ} {res : Except VertexTableError (Option ℕ)}
    (hr : r < deletedTimestamp) (hplace : t.InsertsInPlace id ts)
    (h : addVertex id props ts t = some (res, t')) : Retains r t t' := by
  rcases addVertex_run h with ⟨rfl, -⟩ | ⟨y, q, hins, hcase⟩
  · exact .refl r _
  · have hvalid : ∀ u, t.tracker.isVertexValid u r = some true → y.isVertexValid u r = some true :=
      fun u => VertexTimestamp.isVertexValid_insertVertex hins hplace hr
    rcases hcase with ⟨rfl, -⟩ | ⟨tab, p, -, -, -, rfl, -⟩
    · exact ⟨keys_prefix_newKeys t id, hvalid⟩
    · exact ⟨keys_prefix_newKeys t id, hvalid⟩

end VertexTable

namespace PropertyGraph

variable {V α : Type} {g g' : PropertyGraph V} {r : Except GraphError α}

theorem onVertex_run {label : ℕ} {m : VertexCall V α} (h : onVertex label m g = some (r, g')) :
    ∃ t q t', g.vertexTables[label]? = some t ∧ m t = some (q, t') ∧
      g' = { g with vertexTables := g.vertexTables.set label t' } ∧ r = q.mapError .vertex := by
  obtain ⟨t, ht, h⟩ := bind_eq_some_iff.mp h
  obtain ⟨⟨q, t'⟩, hm, heq⟩ := map_eq_some_iff.mp h
  exact ⟨t, q, t', ht, hm, (Prod.mk.inj heq).2.symm, (Prod.mk.inj heq).1.symm⟩

theorem onEdge_run {τ : Triplet} {m : EdgeCall V α} (h : onEdge τ m g = some (r, g')) :
    ∃ t q t', g.edgeTables τ = some t ∧ m t = some (q, t') ∧
      g' = { g with edgeTables := Function.update g.edgeTables τ (some t') } ∧
      r = q.mapError .edge := by
  obtain ⟨t, ht, h⟩ := bind_eq_some_iff.mp h
  obtain ⟨⟨q, t'⟩, hm, heq⟩ := map_eq_some_iff.mp h
  exact ⟨t, q, t', ht, hm, (Prod.mk.inj heq).2.symm, (Prod.mk.inj heq).1.symm⟩

end PropertyGraph

end Neug.Storage
