import Neug.Lib.Reach
import Neug.Transaction.InsertTransaction

/-! Virtual ids of an insert transaction, while other insert transactions commit. The ids of a
label's committed vertices grow past the base that the transaction has chosen. -/
namespace Neug.Transaction
open Neug.Lib Neug.Storage InsertTransaction List Option Call Function

variable {V : Type}

structure Session (V : Type) where
  graph : PropertyGraph V
  txn : InsertTransaction V
  returned : List (ℕ × ℕ × V)

inductive SessionAct (V : Type) where
  | getVertexIndex (label : ℕ) (id : V)
  | addVertex (label : ℕ) (id : V) (props : List V)
  | addEdge (srcLabel src dstLabel dst edgeLabel : ℕ) (props : List V)
  | ingest (ts : ℕ) (redo : InsertRedo V)

def Session.note (s : Session V) (label : ℕ) (id : V) : Option ℕ → Session V
  | some vid => { s with returned := (label, vid, id) :: s.returned }
  | none => s

def resultId {ε : Type} : Except ε (Option ℕ) → Option ℕ
  | .ok r => r
  | .error _ => none

section

variable [DecidableEq V]

def sessionStep [PropertyValue V] (s : Session V) : SessionAct V → Option (Session V)
  | .getVertexIndex label id =>
    (s.txn.getVertexIndex s.graph label id).map (s.note label id)
  | .addVertex label id props =>
    (InsertTransaction.addVertex s.graph label id props s.txn).map fun r =>
      { s with txn := r.2 }.note label id (resultId r.1)
  | .addEdge srcLabel src dstLabel dst edgeLabel props =>
    (InsertTransaction.addEdge s.graph srcLabel src dstLabel dst edgeLabel props s.txn).map
      fun r => { s with txn := r.2 }
  | .ingest ts redo => (ingestRedo ts redo s.graph).map fun r => { s with graph := r.2 }

def SessionInitial (s : Session V) : Prop :=
  ∃ g ts, ts < deletedTimestamp ∧ s = ⟨g, .start ts, []⟩

structure Resolves [PropertyValue V] (s : Session V) : Prop where
  ids : ∀ label vid id, (label, vid, id) ∈ s.returned →
    s.txn.getVertexId s.graph label vid = some (.ok id)
  edges : ∀ srcLabel src srcId dstLabel dst dstId edgeLabel props txn,
    (srcLabel, src, srcId) ∈ s.returned → (dstLabel, dst, dstId) ∈ s.returned →
    InsertTransaction.addEdge s.graph srcLabel src dstLabel dst edgeLabel props s.txn =
      some (.ok true, txn) →
    txn.archive = s.txn.archive ++ [.insertEdge srcLabel srcId dstLabel dstId edgeLabel props]

def belowBase (s : Session V) (label : ℕ) (id : V) (a : AddedVertices V) : Bool :=
  (s.graph.getLid label id s.txn.timestamp).all fun found => found.all fun lid => lid < a.base

def roomFor (s : Session V) (label : ℕ) : Bool :=
  match s.txn.added label with
  | none => (s.graph.vertexTables[label]?).all fun t => t.keys.length < 2 ^ 32
  | some a => a.base + a.keys.length < 2 ^ 32

/-- Where ids are kept apart: once a label has vertices of the transaction, no key is looked up
that others have committed since; ids do not overflow; and what others insert does not move the
start of the label's tracker. -/
def apart (s : Session V) : SessionAct V → Bool
  | .getVertexIndex label id => (s.txn.added label).all (belowBase s label id)
  | .addVertex label id _ => roomFor s label && (s.txn.added label).all (belowBase s label id)
  | .addEdge .. => true
  | .ingest ts (.insertVertex label id _) =>
    (s.graph.vertexTables[label]?).all fun t => t.InsertsInPlace id ts
  | .ingest _ (.insertEdge ..) => true

end

section

variable {g g' : PropertyGraph V} {x x' : InsertTransaction V} {label vid : ℕ} {id : V}

/-- What makes an id stand for a key: a vertex of the transaction, or one of the graph whose id
is below the base. -/
def Points (g : PropertyGraph V) (x : InsertTransaction V) (label vid : ℕ) (id : V) : Prop :=
  (∃ a, x.added label = some a ∧ a.base ≤ vid ∧ a.keys[vid - a.base]? = some id) ∨
    (∀ a, x.added label = some a → vid < a.base) ∧
      ∃ t, g.vertexTables[label]? = some t ∧ t.keys[vid]? = some id ∧
        t.tracker.isVertexValid vid x.timestamp = some true

theorem getOid_eq {t : VertexTable V} {ts : ℕ} (ht : g.vertexTables[label]? = some t)
    (hkey : t.keys[vid]? = some id) (hvalid : t.tracker.isVertexValid vid ts = some true) :
    (PropertyGraph.getOid label vid ts g).map Prod.fst = some (.ok id) := by
  have hrun : VertexTable.getOid vid ts t = some (.ok id, t) := by
    rw [VertexTable.getOid, read_bind]
    simp only [hkey, hvalid]
    rfl
  rw [PropertyGraph.getOid, PropertyGraph.onVertex, ht, bind_some, hrun]
  rfl

theorem Points.getVertexId (h : Points g x label vid id) :
    x.getVertexId g label vid = some (.ok id) := by
  unfold InsertTransaction.getVertexId
  rcases h with ⟨a, ha, hle, hkey⟩ | ⟨hbase, t, ht, hkey, hvalid⟩
  · simp [ha, if_pos hle, hkey]
  · cases ha : x.added label with
    | none => exact getOid_eq ht hkey hvalid
    | some a =>
      simp only [if_neg (not_le.mpr (hbase a ha))]
      exact getOid_eq ht hkey hvalid

theorem Points.retain (h : Points g x label vid id) (hret : ∀ t, g.vertexTables[label]? = some t →
      ∃ t', g'.vertexTables[label]? = some t' ∧ t.Retains x.timestamp t') :
    Points g' x label vid id := by
  refine h.imp_right ?_
  rintro ⟨hbase, t, ht, hkey, hvalid⟩
  obtain ⟨t', ht', hret⟩ := hret t ht
  obtain ⟨rest, hrest⟩ := hret.keys
  refine ⟨hbase, t', ht', ?_, hret.valid vid hvalid⟩
  rw [← hrest, getElem?_append_left (List.getElem?_eq_some_iff.mp hkey).1, hkey]

end

section

variable {g : PropertyGraph V} {x x' : InsertTransaction V} {label : ℕ} {id : V} {props : List V}

/-- The indexer of the label is there already, or is created above the ids of the graph. -/
theorem createIdIndexer_run {r : Except InsertError (AddedVertices V)}
    (h : createIdIndexer g label x = some (r, x')) : (∃ e, r = .error e ∧ x' = x) ∨
      ∃ a, r = .ok a ∧ x'.added label = some a ∧
        (x.added label = some a ∧ x' = x ∨
          x.added label = none ∧ ∃ t, g.vertexTables[label]? = some t ∧
            a = ⟨toVid t.keys.length, []⟩ ∧
            x' = { x with added := update x.added label (some a) }) := by
  unfold createIdIndexer at h
  rw [read_bind] at h
  cases hadd : x.added label with
  | some a =>
    simp only [hadd] at h
    cases h
    exact .inr ⟨a, rfl, hadd, .inl ⟨rfl, rfl⟩⟩
  | none =>
    simp only [hadd] at h
    obtain ⟨t, ht, h⟩ := defined_bind_eq_some.mp h
    obtain ⟨pk, -, h⟩ := defined_bind_eq_some.mp h
    split_ifs at h
    · rw [modify_bind] at h
      obtain ⟨rfl, rfl⟩ := h
      exact .inr ⟨_, rfl, update_self .., .inr ⟨rfl, t, ht, rfl, rfl⟩⟩
    · rw [raise_apply, some_inj, Prod.mk.injEq] at h
      exact .inl ⟨_, h.1.symm, h.2.symm⟩

theorem addressedKey_run {lid : ℕ} {r : Except InsertError V}
    (h : addressedKey g label lid x = some (r, x')) :
    x' = x ∧ ∀ k, r = .ok k → x.getVertexId g label lid = some (.ok k) := by
  obtain ⟨found, hfound, h⟩ := defined_bind_eq_some.mp h
  cases found with
  | ok k =>
    simp only [Call.pure_apply, some_inj, Prod.mk.injEq] at h
    refine ⟨h.2.symm, ?_⟩
    rintro k' rfl
    rw [hfound, Except.ok.inj h.1]
  | error e =>
    simp only [raise_apply, some_inj, Prod.mk.injEq] at h
    refine ⟨h.2.symm, ?_⟩
    rintro k' rfl
    exact absurd h.1 (by simp)

variable [PropertyValue V] [DecidableEq V]

/-- `AddVertex` leaves the transaction as it is, or it has the indexer of the label and finds the
key or appends it. -/
theorem addVertex_run {r : Except InsertError (Option ℕ)}
    (h : InsertTransaction.addVertex g label id props x = some (r, x')) :
    (x' = x ∧ resultId r = none) ∨
      ∃ a y, createIdIndexer g label x = some (.ok a, y) ∧
        ((∃ vid, y.getVertexIndex g label id = some (some vid) ∧ r = .ok (some vid) ∧ x' = y) ∨
          y.getVertexIndex g label id = some none ∧
            r = .ok (some (toVid (a.keys.length + a.base))) ∧
            x' = { y with
              added := update y.added label (some { a with keys := a.keys ++ [id] })
              archive := y.archive ++ [.insertVertex label id props] }) := by
  unfold InsertTransaction.addVertex at h
  split_ifs at h
  · rcases bind_cases h with ⟨a, y, hcreate, h⟩ | ⟨e, hcreate, rfl⟩
    · rw [read_bind] at h
      obtain ⟨found, hfound, h⟩ := defined_bind_eq_some.mp h
      refine .inr ⟨a, y, hcreate, ?_⟩
      cases found with
      | some vid =>
        simp only [Call.pure_apply, some_inj, Prod.mk.injEq] at h
        exact .inl ⟨vid, hfound, h.1.symm, h.2.symm⟩
      | none =>
        simp only [appendVertex, Call.bind_apply, modify_apply, Call.pure_apply,
          some_inj, Prod.mk.injEq] at h
        exact .inr ⟨hfound, h.1.symm, h.2.symm⟩
    · rcases createIdIndexer_run hcreate with ⟨e', -, rfl⟩ | ⟨a, he, -⟩
      · exact .inl ⟨rfl, rfl⟩
      · cases he
  · rw [Call.pure_apply, some_inj, Prod.mk.injEq] at h
    exact .inl ⟨h.2.symm, by rw [← h.1]; rfl⟩
  · rw [raise_apply, some_inj, Prod.mk.injEq] at h
    exact .inl ⟨h.2.symm, by rw [← h.1]; rfl⟩

omit [DecidableEq V] in
theorem addEdge_run {srcLabel src dstLabel dst edgeLabel : ℕ} {r : Except InsertError Bool}
    (h : InsertTransaction.addEdge g srcLabel src dstLabel dst edgeLabel props x =
      some (r, x')) : x'.added = x.added ∧ x'.timestamp = x.timestamp ∧
      (r = .ok true → ∃ srcKey dstKey, x.getVertexId g srcLabel src = some (.ok srcKey) ∧
        x.getVertexId g dstLabel dst = some (.ok dstKey) ∧
        x'.archive = x.archive ++
          [.insertEdge srcLabel srcKey dstLabel dstKey edgeLabel props]) := by
  rcases bind_cases h with ⟨srcKey, y, hsrcRun, hafterSrc⟩ | ⟨e, hsrcRun, rfl⟩
  · obtain ⟨rfl, hsrc⟩ := addressedKey_run hsrcRun
    rcases bind_cases hafterSrc with ⟨dstKey, z, hdstRun, hlog⟩ | ⟨e, hdstRun, rfl⟩
    · obtain ⟨rfl, hdst⟩ := addressedKey_run hdstRun
      cases hprops : edgeProperties g (srcLabel, dstLabel, edgeLabel) with
      | none =>
        simp only [hprops, raise_apply] at hlog
        cases hlog
        exact ⟨rfl, rfl, fun hr => absurd hr (by simp)⟩
      | some ps =>
        simp only [hprops] at hlog
        split_ifs at hlog
        · rw [modify_bind, Call.pure_apply, some_inj, Prod.mk.injEq] at hlog
          obtain ⟨rfl, rfl⟩ := hlog
          exact ⟨rfl, rfl, fun _ => ⟨srcKey, dstKey, hsrc _ rfl, hdst _ rfl, rfl⟩⟩
        · rw [Call.pure_apply, some_inj, Prod.mk.injEq] at hlog
          obtain ⟨rfl, rfl⟩ := hlog
          exact ⟨rfl, rfl, fun hr => absurd hr (by simp)⟩
    · obtain ⟨rfl, -⟩ := addressedKey_run hdstRun
      exact ⟨rfl, rfl, fun hr => absurd hr (by simp)⟩
  · obtain ⟨rfl, -⟩ := addressedKey_run hsrcRun
    exact ⟨rfl, rfl, fun hr => absurd hr (by simp)⟩

end

section

variable {s s' : Session V} {g : PropertyGraph V} {x x' : InsertTransaction V} {label vid : ℕ}
  {id : V}

structure Apart (s : Session V) : Prop where
  timestamp : s.txn.timestamp < deletedTimestamp
  bound : ∀ label a, s.txn.added label = some a → a.base + a.keys.length ≤ 2 ^ 32
  points : ∀ label vid id, (label, vid, id) ∈ s.returned → Points s.graph s.txn label vid id

theorem Points.create {t : VertexTable V} {label' : ℕ} (h : Points g x label vid id)
    (hnone : x.added label' = none) (ht : g.vertexTables[label']? = some t)
    (hroom : t.keys.length < 2 ^ 32) :
    Points g { x with added := update x.added label' (some ⟨toVid t.keys.length, []⟩) }
      label vid id := by
  by_cases hl : label = label'
  · subst hl
    rcases h with ⟨a, ha, -⟩ | ⟨-, t', ht', hkey, hvalid⟩
    · rw [hnone] at ha
      cases ha
    · refine .inr ⟨?_, t', ht', hkey, hvalid⟩
      intro a ha
      simp only [update_self, some_inj] at ha
      rw [ht, some_inj] at ht'
      subst ha ht'
      have hlt := (List.getElem?_eq_some_iff.mp hkey).1
      rw [toVid, Nat.mod_eq_of_lt hroom]
      exact hlt
  · unfold Points
    simp only [update_of_ne hl]
    exact h

variable {a : AddedVertices V}

theorem Points.append {label' : ℕ} {id' : V} {log : List (InsertRedo V)}
    (h : Points g x label vid id) (ha : x.added label' = some a) : Points g { x with
      added := update x.added label' (some { a with keys := a.keys ++ [id'] })
      archive := log } label vid id := by
  by_cases hl : label = label'
  · subst hl
    unfold Points
    simp only [update_self, some_inj]
    rcases h with ⟨b, hb, hle, hkey⟩ | ⟨hbase, hgraph⟩
    · rw [ha, some_inj] at hb
      subst hb
      refine .inl ⟨_, rfl, hle, ?_⟩
      rw [getElem?_append_left (List.getElem?_eq_some_iff.mp hkey).1, hkey]
    · refine .inr ⟨?_, hgraph⟩
      rintro b rfl
      exact hbase a ha
  · unfold Points
    simp only [update_of_ne hl]
    exact h

theorem Apart.note (h : Apart s) {r : Option ℕ}
    (hr : ∀ vid, r = some vid → Points s.graph s.txn label vid id) : Apart (s.note label id r) := by
  cases r with
  | none => exact h
  | some vid =>
    refine ⟨h.timestamp, h.bound, ?_⟩
    intro label' vid' id' hmem
    rcases mem_cons.mp hmem with heq | hmem
    · obtain ⟨rfl, rfl, rfl⟩ : label' = label ∧ vid' = vid ∧ id' = id := by simpa using heq
      exact hr vid' rfl
    · exact h.points label' vid' id' hmem

theorem Apart.append (id : V) {log : List (InsertRedo V)} (h : Apart s)
    (ha : s.txn.added label = some a) (hroom : a.base + a.keys.length < 2 ^ 32) :
    Apart { s with txn := { s.txn with
      added := update s.txn.added label (some { a with keys := a.keys ++ [id] })
      archive := log } } := by
  refine ⟨h.timestamp, ?_, ?_⟩
  · intro label' b hlabel'
    by_cases hl : label' = label
    · subst hl
      simp only [update_self] at hlabel'
      cases hlabel'
      simpa using (by omega : a.base + (a.keys.length + 1) ≤ 2 ^ 32)
    · simp only [update_of_ne hl] at hlabel'
      exact h.bound label' b hlabel'
  · exact fun label' vid' id' hmem => (h.points label' vid' id' hmem).append ha

theorem Apart.step_addEdge {x : InsertTransaction V} (h : Apart s)
    (hadded : x.added = s.txn.added) (hts : x.timestamp = s.txn.timestamp) :
    Apart { s with txn := x } := by
  refine ⟨hts ▸ h.timestamp, hadded ▸ h.bound, ?_⟩
  intro label vid id hmem
  have hpoints := h.points label vid id hmem
  unfold Points at hpoints ⊢
  rw [hadded, hts]
  exact hpoints

variable [DecidableEq V]

theorem getLid_eq_some (h : g.getLid label id x.timestamp = some (some vid)) :
    ∃ t, g.vertexTables[label]? = some t ∧ t.keys[vid]? = some id ∧
      t.tracker.isVertexValid vid x.timestamp = some true := by
  obtain ⟨t, ht, h⟩ := bind_eq_some_iff.mp h
  unfold VertexTable.getIndex at h
  cases hidx : t.keys.idxOf? id with
  | none => simp [hidx] at h
  | some lid =>
    simp only [hidx] at h
    obtain ⟨valid, hvalid, h⟩ := map_eq_some_iff.mp h
    cases valid with
    | false => cases h
    | true =>
      obtain rfl : lid = vid := by simpa using h
      obtain ⟨hlt, hkey⟩ := idxOf?_eq_some_iff.mp hidx
      exact ⟨t, ht, List.getElem?_eq_some_iff.mpr ⟨hlt, by simpa using hkey.1⟩, hvalid⟩

theorem points_of_getVertexIndex (h : x.getVertexIndex g label id = some (some vid))
    (hbound : ∀ a, x.added label = some a → a.base + a.keys.length ≤ 2 ^ 32)
    (hbelow : ∀ a, x.added label = some a → ∀ lid,
      g.getLid label id x.timestamp = some (some lid) → lid < a.base) :
    Points g x label vid id := by
  obtain ⟨found, hfound, h⟩ := map_eq_some_iff.mp h
  cases found with
  | some lid =>
    obtain rfl : lid = vid := by simpa using h
    exact .inr ⟨fun a ha => hbelow a ha lid hfound, getLid_eq_some hfound⟩
  | none =>
    obtain ⟨a, ha, h⟩ := bind_eq_some_iff.mp h
    obtain ⟨i, hi, rfl⟩ := map_eq_some_iff.mp h
    obtain ⟨hlt, hkey⟩ := idxOf?_eq_some_iff.mp hi
    have hle := hbound a ha
    have hvid : toVid (i + a.base) = i + a.base := Nat.mod_eq_of_lt (by omega)
    refine .inl ⟨a, ha, by omega, ?_⟩
    rw [hvid, Nat.add_sub_cancel]
    exact List.getElem?_eq_some_iff.mpr ⟨hlt, by simpa using hkey.1⟩

theorem lt_base_of_belowBase {lid : ℕ}
    (h : (s.txn.added label).all (belowBase s label id) = true) (ha : s.txn.added label = some a)
    (hlid : s.graph.getLid label id s.txn.timestamp = some (some lid)) : lid < a.base := by
  rw [ha, all_some, belowBase, hlid] at h
  simpa using h

/-- The indexer of a label is there: ids returned so far stand, and the graph's ids of the key
are below the base. -/
theorem Apart.createIdIndexer {props : List V} (h : Apart s)
    (hok : apart s (.addVertex label id props) = true)
    (hrun : createIdIndexer s.graph label s.txn = some (.ok a, x)) :
    Apart { s with txn := x } ∧ x.added label = some a ∧ a.base + a.keys.length < 2 ^ 32 ∧
      ∀ lid, s.graph.getLid label id x.timestamp = some (some lid) → lid < a.base := by
  rw [apart, Bool.and_eq_true] at hok
  rcases createIdIndexer_run hrun with ⟨e, he, -⟩ | ⟨b, hb, hadded, hcase⟩
  · cases he
  · obtain rfl : a = b := Except.ok.inj hb
    rcases hcase with ⟨ha, rfl⟩ | ⟨hnone, t, ht, rfl, rfl⟩
    · have hroom := hok.1
      rw [roomFor, ha] at hroom
      exact ⟨h, ha, by simpa using hroom, fun lid => lt_base_of_belowBase hok.2 ha⟩
    · have hroom : t.keys.length < 2 ^ 32 := by
        have := hok.1
        rw [roomFor, hnone] at this
        simpa [ht] using this
      have hbase : toVid t.keys.length = t.keys.length := Nat.mod_eq_of_lt hroom
      refine ⟨⟨h.timestamp, ?_, ?_⟩, hadded, by simpa [hbase] using hroom, ?_⟩
      · intro label' b hlabel'
        by_cases hl : label' = label
        · subst hl
          simp only [update_self] at hlabel'
          cases hlabel'
          simpa [hbase] using hroom.le
        · simp only [update_of_ne hl] at hlabel'
          exact h.bound label' b hlabel'
      · exact fun label' vid' id' hmem => (h.points label' vid' id' hmem).create hnone ht hroom
      · intro lid hlid
        obtain ⟨t', ht', hkey, -⟩ := getLid_eq_some hlid
        rw [ht, some_inj] at ht'
        subst ht'
        rw [hbase]
        exact (List.getElem?_eq_some_iff.mp hkey).1

variable [PropertyValue V]

theorem Apart.step_addVertex {props : List V} (h : Apart s)
    (hok : apart s (.addVertex label id props) = true)
    (hstep : sessionStep s (.addVertex label id props) = some s') : Apart s' := by
  obtain ⟨⟨r, x'⟩, hrun, rfl⟩ := map_eq_some_iff.mp hstep
  rcases addVertex_run hrun with ⟨rfl, hres⟩ | ⟨a, y, hcreate, hcase⟩
  · rw [hres]
    exact h
  · obtain ⟨hy, hadded, hroom, hbelow⟩ := h.createIdIndexer hok hcreate
    rcases hcase with ⟨vid, hfound, rfl, rfl⟩ | ⟨-, rfl, rfl⟩
    · apply hy.note
      rintro vid' hvid
      obtain rfl : vid = vid' := by simpa [resultId] using hvid
      refine points_of_getVertexIndex hfound (hy.bound label) ?_
      intro b hb lid hlid
      rw [hadded, some_inj] at hb
      exact hb ▸ hbelow lid hlid
    · apply (hy.append id hadded hroom).note
      rintro vid hvid
      obtain rfl : toVid (a.keys.length + a.base) = vid := by simpa [resultId] using hvid
      have hvid' : toVid (a.keys.length + a.base) = a.keys.length + a.base :=
        Nat.mod_eq_of_lt (by omega)
      refine .inl ⟨_, update_self .., ?_, ?_⟩
      · rw [hvid']
        exact Nat.le_add_left _ _
      · rw [hvid']
        simp

omit [PropertyValue V] in
/-- A record that others ingest in place retains the tables of all labels. -/
theorem retains_ingestRedo {ts r : ℕ} {redo : InsertRedo V} {g' : PropertyGraph V}
    {res : Except InsertError Unit} (hr : r < deletedTimestamp)
    (hok : apart s (.ingest ts redo) = true)
    (hrun : ingestRedo ts redo s.graph = some (res, g')) (label : ℕ) (t : VertexTable V)
    (ht : s.graph.vertexTables[label]? = some t) :
    ∃ t', g'.vertexTables[label]? = some t' ∧ t.Retains r t' := by
  cases redo with
  | insertVertex label' id props =>
    obtain ⟨t₀, q, t₁, ht₀, hadd, rfl, -⟩ := ingestVertex_run hrun
    by_cases hl : label' = label
    · subst hl
      rw [ht₀, some_inj] at ht
      subst ht
      have hplace : t₀.InsertsInPlace id ts := by simpa [apart, ht₀] using hok
      refine ⟨t₁, ?_, VertexTable.retains_addVertex hr hplace hadd⟩
      rw [getElem?_set_self (List.getElem?_eq_some_iff.mp ht₀).1]
    · exact ⟨t, by rwa [getElem?_set_ne hl], .refl r t⟩
  | insertEdge srcLabel src dstLabel dst edgeLabel props =>
    obtain ⟨srcLid, dstLid, -, -, hcase⟩ := ingestEdge_run hrun
    rcases hcase with ⟨rfl, -⟩ | ⟨t₀, q, t₁, -, -, rfl, -⟩
    · exact ⟨t, ht, .refl r t⟩
    · exact ⟨t, ht, .refl r t⟩

theorem Apart.step {a : SessionAct V} (h : Apart s) (hok : apart s a = true)
    (hstep : sessionStep s a = some s') : Apart s' := by
  cases a with
  | getVertexIndex label id =>
    obtain ⟨found, hfound, rfl⟩ := map_eq_some_iff.mp hstep
    apply h.note
    rintro vid rfl
    exact points_of_getVertexIndex hfound (h.bound label)
      fun a ha lid hlid => lt_base_of_belowBase hok ha hlid
  | addVertex label id props => exact h.step_addVertex hok hstep
  | addEdge srcLabel src dstLabel dst edgeLabel props =>
    obtain ⟨⟨r, x⟩, hrun, rfl⟩ := map_eq_some_iff.mp hstep
    obtain ⟨hadded, hts, -⟩ := addEdge_run hrun
    exact h.step_addEdge hadded hts
  | ingest ts redo =>
    obtain ⟨⟨r, g⟩, hrun, rfl⟩ := map_eq_some_iff.mp hstep
    refine ⟨h.timestamp, h.bound, ?_⟩
    intro label vid id hmem
    exact (h.points label vid id hmem).retain (retains_ingestRedo h.timestamp hok hrun label)

omit [DecidableEq V] in
theorem Apart.resolves (h : Apart s) : Resolves s := by
  refine ⟨fun label vid id hmem => (h.points label vid id hmem).getVertexId, ?_⟩
  intro srcLabel src srcId dstLabel dst dstId edgeLabel props x hsrc hdst hrun
  obtain ⟨-, -, hlog⟩ := addEdge_run hrun
  obtain ⟨srcKey, dstKey, hsrcKey, hdstKey, harchive⟩ := hlog rfl
  rw [(h.points _ _ _ hsrc).getVertexId, some_inj] at hsrcKey
  rw [(h.points _ _ _ hdst).getVertexId, some_inj] at hdstKey
  rw [harchive, Except.ok.inj hsrcKey, Except.ok.inj hdstKey]

/-- In every run that keeps ids apart, an id stands for the key it was returned for. -/
theorem local_ids_resolve {s : Session V}
    (h : Reach SessionInitial sessionStep (fun s a => apart s a = true) s) : Resolves s := by
  have hinv : Apart s := by
    refine Reach.invariant (fun _ _ => trivial) ?_ ?_ h
    · rintro s ⟨g, ts, hts, rfl⟩
      exact ⟨hts, fun _ _ ha => absurd ha (by simp [InsertTransaction.start]), by simp⟩
    · exact fun s a s' _ hs hok hstep => hs.step hok hstep
  exact hinv.resolves

end

def oneLabel : PropertyGraph ℕ where
  schema := ⟨["person"], ∅, [⟨some (.uint64, "id"), []⟩], [], ∅, ∅⟩
  vertexTables := [⟨[], 4, some .empty, VertexTimestamp.empty.reserve 4⟩]
  edgeTables := fun _ => none

def committedBefore : List (SessionAct ℕ) :=
  [.ingest 1 (.insertVertex 0 20 []), .getVertexIndex 0 20, .addVertex 0 10 []]

theorem local_ids_resolve_before :
    ∃ s : Session ℕ, s.returned = [(0, 1, 10), (0, 0, 20)] ∧ Resolves s := by
  have hstart : Reach SessionInitial sessionStep (fun s a => apart s a = true)
      ⟨oneLabel, .start 2, []⟩ := .init ⟨oneLabel, 2, by decide, rfl⟩
  obtain ⟨s, hreach, hs⟩ := hstart.exists_of_execute committedBefore
    (fun s => s.returned = [(0, 1, 10), (0, 0, 20)]) (by decide +kernel)
  exact ⟨s, hs, local_ids_resolve hreach⟩

/-- Another transaction commits after the base was chosen, and its vertex gets the id of the
transaction's own one. -/
def committedBetween : List (SessionAct ℕ) :=
  [.addVertex 0 10 [], .ingest 1 (.insertVertex 0 20 []), .getVertexIndex 0 20]

theorem local_ids_collide :
    ∃ s : Session ℕ, Reach SessionInitial sessionStep anyStep s ∧ ¬Resolves s := by
  have hstart : Reach SessionInitial sessionStep anyStep
      ⟨oneLabel, .start 2, []⟩ := .init ⟨oneLabel, 2, by decide, rfl⟩
  obtain ⟨s, hreach, hmem, hid⟩ := hstart.exists_of_execute committedBetween
    (fun s => (0, 0, 20) ∈ s.returned ∧
      (s.txn.getVertexId s.graph 0 0).bind Except.toOption = some 10) (by decide +kernel)
  refine ⟨s, hreach, fun hres => ?_⟩
  rw [hres.ids 0 0 20 hmem] at hid
  cases hid

end Neug.Transaction
