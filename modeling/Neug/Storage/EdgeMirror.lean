import Neug.Lib.Reach
import Neug.Storage.EdgeSearch

/-! The outgoing and the incoming CSR of an edge table mirror each other. Each member function
writes them one after the other; the results here say when both writes concern the same
edge. -/
namespace Neug.Storage
open Neug.Lib List Option Call MutableCsr

variable {V : Type}

/-- The calls that change an `EdgeTable`. Properties are added to the shared schema first and
deleted from it last. -/
inductive EdgeOp (V : Type) where
  | ensureCapacity (srcCap dstCap capacity : ℕ)
  | addEdge (src dst : ℕ) (edgeData : List V) (ts : ℕ)
  | batchAddEdges (rows : List (ℕ × ℕ × List V))
  | batchAddRecords (srcNum dstNum : ℕ) (rows : List (EdgeTable.BatchRow V srcNum dstNum))
  | deleteEdge (src dst oeOffset ieOffset ts : ℕ)
  | batchDeletePairs (pairs : List (ℕ × ℕ))
  | batchDeleteOffsets (oeEdges ieEdges : List (ℕ × ℕ))
  | deleteVertex (past : EdgeTable.Past) (isSrc : Bool) (vid ts : ℕ)
  | batchDeleteVertices (srcSet dstSet : Finset ℕ)
  | revertDeleteEdge (src dst oeOffset ieOffset ts : ℕ)
  | updateEdgeProperty (src dst oeOffset ieOffset col : ℕ) (prop : V) (ts : ℕ)
  | addProperties (new : List (PropertyDef V))
  | deleteProperties (names : List String)
  | compact (compactCsr sortOnCompaction : Bool) (ts : ℕ)

namespace EdgeTable

def call [PropertyValue V] : EdgeOp V → EdgeCall V Unit
  | .ensureCapacity srcCap dstCap capacity => ensureCapacity srcCap dstCap capacity
  | .addEdge src dst edgeData ts => addEdge src dst edgeData ts
  | .batchAddEdges rows => batchAddEdges rows
  | .batchAddRecords _ _ rows => batchAddRecords rows
  | .deleteEdge src dst oe ie ts => deleteEdge src dst oe ie ts
  | .batchDeletePairs pairs => batchDeletePairs pairs
  | .batchDeleteOffsets oe ie => batchDeleteOffsets oe ie
  | .deleteVertex past isSrc vid ts => deleteVertex past isSrc vid ts
  | .batchDeleteVertices srcSet dstSet => batchDeleteVertices srcSet dstSet
  | .revertDeleteEdge src dst oe ie ts => revertDeleteEdge src dst oe ie ts
  | .updateEdgeProperty src dst oe ie col prop ts => updateEdgeProperty src dst oe ie col prop ts
  | .addProperties new => do addSchemaProperties new; addProperties new
  | .deleteProperties names => do deleteProperties names; deleteSchemaProperties names
  | .compact compactCsr sort ts => compact compactCsr sort ts

def step [PropertyValue V] (t : EdgeTable V) (op : EdgeOp V) : Option (EdgeTable V) :=
  (call op).after t

def Mirror (t : EdgeTable V) : Prop := t.outCsr.Mirrored t.inCsr

variable {t t' : EdgeTable V} {r : Except EdgeError Unit}

theorem onOut_cases {f : MutableCsr (EdgeData V) → Except CsrError (MutableCsr (EdgeData V))}
    (h : onOut f t = some (r, t')) :
    (∃ c, f t.outCsr = .ok c ∧ r = .ok () ∧ t' = { t with outCsr := c }) ∨
      ∃ e, f t.outCsr = .error e ∧ r = .error (.csr e) ∧ t' = t := by
  unfold onOut at h
  cases hf : f t.outCsr with
  | ok c =>
    simp only [hf, some.injEq, Prod.mk.injEq] at h
    exact .inl ⟨c, rfl, h.1.symm, h.2.symm⟩
  | error e =>
    simp only [hf, some.injEq, Prod.mk.injEq] at h
    exact .inr ⟨e, rfl, h.1.symm, h.2.symm⟩

theorem onIn_cases {f : MutableCsr (EdgeData V) → Except CsrError (MutableCsr (EdgeData V))}
    (h : onIn f t = some (r, t')) :
    (∃ c, f t.inCsr = .ok c ∧ r = .ok () ∧ t' = { t with inCsr := c }) ∨
      ∃ e, f t.inCsr = .error e ∧ r = .error (.csr e) ∧ t' = t := by
  unfold onIn at h
  cases hf : f t.inCsr with
  | ok c =>
    simp only [hf, some.injEq, Prod.mk.injEq] at h
    exact .inl ⟨c, rfl, h.1.symm, h.2.symm⟩
  | error e =>
    simp only [hf, some.injEq, Prod.mk.injEq] at h
    exact .inr ⟨e, rfl, h.1.symm, h.2.symm⟩

section

-- what the property table does has no influence on the CSRs
variable (P : MutableCsr (EdgeData V) → MutableCsr (EdgeData V) → Prop)

theorem keeps_onTable (f : Table V → Option (Table V × Except TableError Unit)) :
    Keeps (fun t => P t.outCsr t.inCsr) (onTable f) := by
  intro s hs r s' h
  obtain ⟨x, -, hx⟩ := map_eq_some_iff.mp h
  cases hx
  exact hs

theorem keeps_modify {g : EdgeTable V → EdgeTable V}
    (hg : ∀ t, P t.outCsr t.inCsr → P (g t).outCsr (g t).inCsr) :
    Keeps (fun t => P t.outCsr t.inCsr) (Call.modify g : EdgeCall V Unit) := by
  intro s hs r s' h
  cases h
  exact hg s hs

theorem keeps_pure : Keeps (fun t => P t.outCsr t.inCsr) (pure () : EdgeCall V Unit) := by
  intro s hs r s' h
  cases h
  exact hs

theorem keeps_raise (e : EdgeError) :
    Keeps (fun t => P t.outCsr t.inCsr) (Call.raise e : EdgeCall V Unit) := by
  intro s hs r s' h
  cases h
  exact hs

theorem keeps_insertRows (i : ℕ) (rows : List (List V)) :
    Keeps (fun t => P t.outCsr t.inCsr) (insertRows i rows) := by
  induction rows generalizing i with
  | nil => exact keeps_pure P
  | cons vs rows ih => exact (keeps_onTable P _).bind fun _ => ih (i + 1)

theorem keeps_insertBatchRows (i : ℕ) (rows : List (Option (List V))) :
    Keeps (fun t => P t.outCsr t.inCsr) (insertBatchRows i rows) := by
  induction rows generalizing i with
  | nil => exact keeps_pure P
  | cons vs rows ih =>
    cases vs with
    | none => exact keeps_raise P _
    | some vs => exact (keeps_onTable P _).bind fun _ => ih (i + 1)

theorem keeps_addSchemaProperties (new : List (PropertyDef V)) :
    Keeps (fun t => P t.outCsr t.inCsr) (addSchemaProperties new) := by
  induction new with
  | nil => exact keeps_pure P
  | cons p new ih =>
    intro s hs r s' h
    rw [addSchemaProperties, read_bind] at h
    split_ifs at h
    · exact (keeps_raise P _).run h hs
    · refine Keeps.bind (keeps_modify P ?_) (fun _ => ih) s hs r s' h
      exact fun _ hP => hP

variable [PropertyValue V]

theorem keeps_ensureTableCapacity (k : ℕ) :
    Keeps (fun t => P t.outCsr t.inCsr) (ensureTableCapacity k : EdgeCall V Unit) := by
  intro s hs r s' h
  rw [ensureTableCapacity, read_bind] at h
  split_ifs at h
  · exact (keeps_pure P).run h hs
  · refine Keeps.bind (keeps_onTable P _) (fun _ => keeps_modify P ?_) s hs r s' h
    exact fun _ hP => hP

theorem keeps_reserveRows (k : ℕ) :
    Keeps (fun t => P t.outCsr t.inCsr) (reserveRows k : EdgeCall V Unit) := by
  intro s hs r s' h
  rw [reserveRows, read_bind] at h
  split_ifs at h
  · exact (keeps_pure P).run h hs
  · exact (keeps_ensureTableCapacity P _).run h hs
  · exact (keeps_ensureTableCapacity P _).run h hs

end

/-- The outgoing offset names an edge to `dst`, and the incoming offset its other end. -/
def EndsAt (t : EdgeTable V) (src dst oeOffset ieOffset : ℕ) (n : Nbr (EdgeData V)) : Prop :=
  (t.outCsr.list src)[oeOffset]? = some n ∧ n.neighbor = dst ∧
    (t.inCsr.list dst)[ieOffset]? = some (n.image src)

section

variable {src dst ts : ℕ} (h : t.Mirror) (hsize : dst < t.inCsr.size → src < t.outCsr.size)
include h hsize

theorem mirror_putBoth {d : EdgeData V}
    (hrun : putBoth src dst d ts t = some (r, t')) : t'.Mirror := by
  rcases bind_cases hrun with ⟨_, t₁, hin, hout⟩ | ⟨e, hin, -⟩
  · rcases onIn_cases hin with ⟨c, hc, -, rfl⟩ | ⟨e, -, hr, -⟩
    · unfold putEdge at hc
      split_ifs at hc with hdst
      cases hc
      have hsrc := hsize (not_le.mp hdst)
      rcases onOut_cases hout with ⟨c, hc, -, rfl⟩ | ⟨e, he, -, -⟩
      · simp only [putEdge, if_neg (not_le.mpr hsrc)] at hc
        cases hc
        exact h.push hsrc (not_le.mp hdst) ts d
      · simp [putEdge, not_le.mpr hsrc] at he
    · cases hr
  · rcases onIn_cases hin with ⟨c, -, hr, -⟩ | ⟨e, -, -, rfl⟩
    · cases hr
    · exact h

theorem mirror_addEdge {edgeData : List V}
    (hrun : addEdge src dst edgeData ts t = some (r, t')) : t'.Mirror := by
  rw [addEdge, read_bind] at hrun
  split_ifs at hrun
  · rw [addBundledEdge] at hrun
    obtain ⟨d, -, hrun⟩ := defined_bind_eq_some.mp hrun
    exact mirror_putBoth h hsize hrun
  · rw [addUnbundledEdge, read_bind] at hrun
    split_ifs at hrun
    · cases hrun
      exact h
    · rw [modify_bind] at hrun
      obtain ⟨d, -, hrun⟩ := defined_bind_eq_some.mp hrun
      -- the row is written once both CSRs are
      have hput : ∀ r₁ t₁, putBoth src dst d ts { t with tableIdx := t.tableIdx + 1 } =
          some (r₁, t₁) → t₁.Mirror := fun r₁ t₁ h₁ =>
        mirror_putBoth (t := { t with tableIdx := t.tableIdx + 1 }) h hsize h₁
      rcases bind_cases hrun with ⟨_, t₁, h₁, h₂⟩ | ⟨e, h₁, -⟩
      · exact keeps_onTable MutableCsr.Mirrored _ t₁ (hput _ _ h₁) _ _ h₂
      · exact hput _ _ h₁

end

theorem mirror_deleteEdge {src dst oe ie ts : ℕ} (h : t.Mirror)
    (hends : ∀ n, (t.outCsr.list src)[oe]? = some n → t.EndsAt src dst oe ie n)
    (hrun : deleteEdge src dst oe ie ts t = some (r, t')) : t'.Mirror := by
  rcases bind_cases hrun with ⟨_, t₁, hout, hin⟩ | ⟨e, hout, -⟩
  · rcases onOut_cases hout with ⟨a, ha, -, rfl⟩ | ⟨e, -, hr, -⟩
    · cases hn : (t.outCsr.list src)[oe]? with
      | none => simp [MutableCsr.deleteEdge, hn] at ha
      | some n =>
        obtain ⟨-, rfl, himg⟩ := hends n hn
        rcases onIn_cases hin with ⟨b, hb, -, rfl⟩ | ⟨e, he, -, -⟩
        · exact h.deleteEdge hn himg ha hb
        · simp only [MutableCsr.deleteEdge, himg] at he
          split_ifs at he
    · cases hr
  · rcases onOut_cases hout with ⟨a, -, hr, -⟩ | ⟨e, -, -, rfl⟩
    · cases hr
    · exact h

theorem mirror_revertDeleteEdge {src dst oe ie ts : ℕ} (h : t.Mirror)
    (hends : ∀ n, (t.outCsr.list src)[oe]? = some n → n.neighbor = dst →
      n.timestamp = invalidTimestamp → t.EndsAt src dst oe ie n)
    (hrun : revertDeleteEdge src dst oe ie ts t = some (r, t')) : t'.Mirror := by
  rcases bind_cases hrun with ⟨_, t₁, hout, hin⟩ | ⟨e, hout, -⟩
  · rcases onOut_cases hout with ⟨a, ha, -, rfl⟩ | ⟨e, -, hr, -⟩
    · cases hn : (t.outCsr.list src)[oe]? with
      | none => simp [MutableCsr.revertDeleteEdge, hn] at ha
      | some n =>
        have ha' := ha
        simp only [MutableCsr.revertDeleteEdge, hn] at ha'
        split_ifs at ha' with hnbr hts
        obtain ⟨-, rfl, himg⟩ := hends n hn (not_not.mp hnbr) hts
        rcases onIn_cases hin with ⟨b, hb, -, rfl⟩ | ⟨e, he, -, -⟩
        · exact h.revertDeleteEdge hn himg ha hb
        · simp [MutableCsr.revertDeleteEdge, himg, Nbr.image, hts] at he
    · cases hr
  · rcases onOut_cases hout with ⟨a, -, hr, -⟩ | ⟨e, -, -, rfl⟩
    · cases hr
    · exact h

section

theorem list_deleteEdge {c c' : MutableCsr (EdgeData V)} {v i ts : ℕ} {n : Nbr (EdgeData V)}
    (hn : (c.list v)[i]? = some n) (hvis : n.timestamp ≤ ts) (h : c.deleteEdge v i ts = .ok c') :
    c'.list v = (c.list v).set i n.tombstone := by
  simp only [MutableCsr.deleteEdge, hn, if_pos hvis] at h
  cases h
  change (c.setNbr v i n.tombstone).list v = _
  rw [list_setNbr (lt_size_of_getElem? hn), if_pos rfl]

theorem deleteEdge_returns {src dst oe ie ts : ℕ} {u : Unit}
    (h : deleteEdge src dst oe ie ts t = some (.ok u, t')) :
    t.outCsr.deleteEdge src oe ts = .ok t'.outCsr ∧
      t.inCsr.deleteEdge dst ie ts = .ok t'.inCsr := by
  rcases bind_cases h with ⟨_, t₁, hout, hin⟩ | ⟨e, -, he⟩
  · rcases onOut_cases hout with ⟨a, ha, -, rfl⟩ | ⟨e, -, hr, -⟩
    · rcases onIn_cases hin with ⟨b, hb, -, rfl⟩ | ⟨e, -, hr, -⟩
      · exact ⟨ha, hb⟩
      · cases hr
    · cases hr
  · cases he

variable [PropertyValue V] {past : Past}

/-- The walk over an outgoing list: the rest of the list stays separable. -/
theorem mirror_deleteOutEdges {vid ts : ℕ} (hts : ts < invalidTimestamp)
    {is : List ℕ} (h : t.Mirror) (hsep : Separable (t.outCsr.list vid) ts)
    (hrun : deleteOutEdges past vid ts is t = some (r, t')) : t'.Mirror := by
  induction is generalizing t with
  | nil =>
    cases hrun
    exact h
  | cons i is ih =>
    obtain ⟨n, hn, hrun⟩ := defined_bind_eq_some.mp hrun
    split_ifs at hrun with hvis
    · obtain ⟨ie, hie, hrun⟩ := defined_bind_eq_some.mp hrun
      unfold searchInOffset at hie
      split_ifs at hie with hsize
      have himg := fuzzySearchOffset_image h hts hsep hn hvis hie
      have hends : ∀ m, (t.outCsr.list vid)[i]? = some m → t.EndsAt vid n.neighbor i ie m := by
        intro m hm
        obtain rfl : n = m := by rw [hn] at hm; exact some.inj hm
        exact ⟨hn, rfl, himg⟩
      rcases bind_cases hrun with ⟨_, t₁, hdel, hrest⟩ | ⟨e, hdel, -⟩
      · have hlist := list_deleteEdge hn hvis (deleteEdge_returns hdel).1
        refine ih (mirror_deleteEdge h hends hdel) ?_ hrest
        rw [hlist]
        exact hsep.set_tombstone hts hn
      · exact mirror_deleteEdge h hends hdel
    · exact ih h hsep hrun

theorem mirror_deleteInEdges {vid ts : ℕ} (hts : ts < invalidTimestamp)
    {is : List ℕ} (h : t.Mirror) (hsep : Separable (t.inCsr.list vid) ts)
    (hrun : deleteInEdges past vid ts is t = some (r, t')) : t'.Mirror := by
  induction is generalizing t with
  | nil =>
    cases hrun
    exact h
  | cons i is ih =>
    obtain ⟨n, hn, hrun⟩ := defined_bind_eq_some.mp hrun
    split_ifs at hrun with hvis
    · obtain ⟨oe, hoe, hrun⟩ := defined_bind_eq_some.mp hrun
      unfold searchOutOffset at hoe
      split_ifs at hoe with hsize
      have himg := fuzzySearchOffset_image h.symm hts hsep hn hvis hoe
      have hends : ∀ m, (t.outCsr.list n.neighbor)[oe]? = some m →
          t.EndsAt n.neighbor vid oe i m := by
        intro m hm
        obtain rfl : n.image vid = m := by rw [himg] at hm; exact some.inj hm
        exact ⟨himg, rfl, hn⟩
      rcases bind_cases hrun with ⟨_, t₁, hdel, hrest⟩ | ⟨e, hdel, -⟩
      · have hlist := list_deleteEdge hn hvis (deleteEdge_returns hdel).2
        refine ih (mirror_deleteEdge h hends hdel) ?_ hrest
        rw [hlist]
        exact hsep.set_tombstone hts hn
      · exact mirror_deleteEdge h hends hdel
    · exact ih h hsep hrun

theorem mirror_deleteVertex {isSrc : Bool} {vid ts : ℕ} (h : t.Mirror) (hts : ts < invalidTimestamp)
    (hsep : Separable (if isSrc then t.outCsr.list vid else t.inCsr.list vid) ts)
    (hrun : deleteVertex past isSrc vid ts t = some (r, t')) : t'.Mirror := by
  rw [deleteVertex, read_bind] at hrun
  cases isSrc with
  | true =>
    simp only [if_true] at hrun hsep
    split_ifs at hrun
    · cases hrun
    · exact mirror_deleteOutEdges hts h hsep hrun
  | false =>
    simp only [Bool.false_eq_true, if_false] at hrun hsep
    split_ifs at hrun
    · cases hrun
    · exact mirror_deleteInEdges hts h hsep hrun

end

section

theorem getElem?_of_advance {c : MutableCsr (EdgeData V)} {v ts k i : ℕ} {n : Nbr (EdgeData V)}
    (h : c.advance v ts k = some (some (i, n))) : (c.list v)[i]? = some n := by
  unfold advance at h
  cases hk : (offsets (Nbr.visible ts) (c.list v))[k]? with
  | none =>
    rw [hk] at h
    split_ifs at h
    cases h
  | some o =>
    simp only [hk] at h
    split_ifs at h
    obtain ⟨m, hm, heq⟩ := map_eq_some_iff.mp h
    cases heq
    exact hm

variable {prop : V}

theorem bundledSet_image {n n' : Nbr (EdgeData V)} {ts v : ℕ}
    (h : t.bundledSet prop ts n = some n') :
    n'.neighbor = n.neighbor ∧ t.bundledSet prop ts (n.image v) = some (n'.image v) := by
  unfold bundledSet at h ⊢
  split at h
  · cases h
    exact ⟨rfl, rfl⟩
  · split_ifs at h ⊢
    cases h
    exact ⟨rfl, rfl⟩
  · cases h

theorem mirror_updateBundled {src dst oe ie ts : ℕ} (h : t.Mirror)
    (hends : ∀ i n, t.outCsr.advance src ts oe = some (some (i, n)) →
      n.neighbor = dst ∧ (t.inCsr.advance dst ts ie = none ∨
        ∃ j, t.inCsr.advance dst ts ie = some (some (j, n.image src))))
    (hrun : updateBundled src dst oe ie prop ts t = some (r, t')) : t'.Mirror := by
  obtain ⟨o, ho, hrun⟩ := defined_bind_eq_some.mp hrun
  cases o with
  | none =>
    cases hrun
    exact h
  | some p =>
    obtain ⟨i, n⟩ := p
    obtain ⟨rfl, hin⟩ := hends i n ho
    obtain ⟨n', hn', hrun⟩ := defined_bind_eq_some.mp hrun
    obtain ⟨q, hq, hrun⟩ := defined_bind_eq_some.mp hrun
    obtain ⟨hnbr, himg⟩ := bundledSet_image hn'
    rcases hin with hin | ⟨j, hin⟩
    · rw [hin] at hq
      cases hq
    · obtain rfl : some (j, n.image src) = q := by rw [hin] at hq; exact some.inj hq
      obtain ⟨m', hm', hrun⟩ := defined_bind_eq_some.mp hrun
      obtain rfl : n'.image src = m' := by
        change t.bundledSet prop ts (n.image src) = some m' at hm'
        rw [himg] at hm'
        exact some.inj hm'
      cases hrun
      exact h.setNbr (getElem?_of_advance ho) (getElem?_of_advance hin) hnbr

/-- An update in a table with rows that leaves the timestamp of the entry as it is. -/
theorem mirror_updateUnbundled {src oe col ts : ℕ} (h : t.Mirror)
    (hsame : ∀ i n, t.outCsr.advance src ts oe = some (some (i, n)) → n.timestamp = ts)
    (hrun : updateUnbundled src oe col prop ts t = some (r, t')) : t'.Mirror := by
  rw [updateUnbundled, read_bind] at hrun
  split_ifs at hrun
  · cases hrun
  · obtain ⟨o, ho, hrun⟩ := defined_bind_eq_some.mp hrun
    cases o with
    | none =>
      cases hrun
      exact h
    | some p =>
      obtain ⟨i, n⟩ := p
      obtain rfl := hsame i n ho
      cases hd : n.data with
      | empty => simp [hd] at hrun
      | value v => simp [hd] at hrun
      | row k =>
        simp only [hd] at hrun
        refine keeps_onTable MutableCsr.Mirrored _ _ ?_ _ _ hrun
        rw [← hd]
        intro v w
        rw [← h v w]
        exact add_right_cancel (live_setNbr (getElem?_of_advance ho) n v w)

end

section

theorem mirror_rebuild (h : t.Mirror) (type : Option DataTypeId) {rows : List (ℕ × ℕ × EdgeData V)}
    (hrows : ∀ q ∈ rows, ∃ e ∈ t.outCsr.batchExport, q.1 = e.1 ∧ q.2.1 = e.2.1) :
    (t.rebuild type rows).Mirror := by
  refine (mirrored_fresh _ _).batchPutEdges fun q hq => ?_
  obtain ⟨e, he, h1, h2⟩ := hrows q hq
  obtain ⟨ts, hlive⟩ := mem_batchExport he
  have hdst := lt_size_of_live (h _ _ ▸ hlive)
  simp [h1, h2, lt_size_of_live hlive, hdst]

theorem mem_exportWith {d : EdgeData V} {q : ℕ × ℕ × EdgeData V} (hq : q ∈ t.exportWith d) :
    ∃ e ∈ t.outCsr.batchExport, q.1 = e.1 ∧ q.2.1 = e.2.1 := by
  obtain ⟨e, he, rfl⟩ := mem_map.mp hq
  exact ⟨e, he, rfl, rfl⟩

theorem mem_of_mapM {X : Type} {f : ℕ × ℕ × X → Option (EdgeData V)} {es : List (ℕ × ℕ × X)}
    {rows : List (ℕ × ℕ × EdgeData V)}
    (h : (es.mapM fun e => (f e).map fun d => (e.1, e.2.1, d)) = some rows)
    {q : ℕ × ℕ × EdgeData V} (hq : q ∈ rows) : ∃ e ∈ es, q.1 = e.1 ∧ q.2.1 = e.2.1 := by
  induction es generalizing rows with
  | nil =>
    obtain rfl : [] = rows := by simpa using h
    cases hq
  | cons e es ih =>
    rw [mapM_cons] at h
    obtain ⟨x, hx, h⟩ := bind_eq_some_iff.mp h
    obtain ⟨rest, hrest, h⟩ := bind_eq_some_iff.mp h
    obtain rfl : x :: rest = rows := by simpa using h
    rcases mem_cons.mp hq with rfl | hq
    · obtain ⟨d, -, rfl⟩ := map_eq_some_iff.mp hx
      exact ⟨e, mem_cons_self, rfl, rfl⟩
    · obtain ⟨e', he', hq'⟩ := ih hrest hq
      exact ⟨e', mem_cons_of_mem _ he', hq'⟩

theorem mirror_createBundledDefault : Keeps Mirror (createBundledDefault : EdgeCall V Unit) := by
  intro s hs r s' h
  obtain ⟨p, -, h⟩ := defined_bind_eq_some.mp h
  split_ifs at h
  · cases h
    exact hs
  · cases h
    exact mirror_rebuild hs (some p.type) fun q hq => mem_exportWith hq

theorem mirror_createBundledFrom (col : Column V) : Keeps Mirror (createBundledFrom col) := by
  intro s hs r s' h
  rw [createBundledFrom, read_bind] at h
  split_ifs at h
  · cases h
    exact hs
  · cases h
    exact hs
  · obtain ⟨rows, hrows, h⟩ := defined_bind_eq_some.mp h
    cases h
    exact mirror_rebuild hs (some col.type) fun q hq => mem_of_mapM hrows hq

theorem mirror_createEmptyCsr : Keeps Mirror (createEmptyCsr : EdgeCall V Unit) := by
  intro s hs r s' h
  cases h
  exact mirror_rebuild hs none fun q hq => mem_exportWith hq

theorem keeps_fillFirstColumn (P : MutableCsr (EdgeData V) → MutableCsr (EdgeData V) → Prop) :
    Keeps (fun t => P t.outCsr t.inCsr) (fillFirstColumn : EdgeCall V Unit) := by
  intro s hs r s' h
  rw [fillFirstColumn, read_bind] at h
  cases hcols : s.table.columns with
  | nil =>
    rw [hcols] at h
    exact (keeps_pure P).run h hs
  | cons c rest =>
    simp only [hcols] at h
    split_ifs at h
    · exact (keeps_pure P).run h hs
    · exact (keeps_raise P _).run h hs
    · obtain ⟨cells, -, h⟩ := defined_bind_eq_some.mp h
      cases h
      exact hs

theorem mirror_shrinkLayout : Keeps Mirror (shrinkLayout : EdgeCall V Unit) := by
  intro s hs r s' h
  rw [shrinkLayout, read_bind] at h
  match hcols : s.table.columns with
  | [] =>
    rw [hcols] at h
    exact mirror_createEmptyCsr.run h hs
  | [c] =>
    simp only [hcols] at h
    split_ifs at h
    · exact (keeps_pure MutableCsr.Mirrored).run h hs
    · exact (mirror_createBundledFrom c).run h hs
  | _ :: _ :: _ =>
    rw [hcols] at h
    exact (keeps_pure MutableCsr.Mirrored).run h hs

theorem mirror_deleteProperties (names : List String) :
    Keeps Mirror (deleteProperties names : EdgeCall V Unit) := by
  intro s hs r s' h
  rw [deleteProperties, read_bind] at h
  split_ifs at h
  · cases hps : s.properties with
    | nil =>
      simp only [hps] at h
      exact (keeps_pure MutableCsr.Mirrored).run h hs
    | cons p ps =>
      simp only [hps] at h
      split_ifs at h
      · exact mirror_createEmptyCsr.run h hs
      · exact (keeps_pure MutableCsr.Mirrored).run h hs
  · rw [modify_bind] at h
    exact mirror_shrinkLayout.run h hs

variable [PropertyValue V]

theorem mirror_createUnbundledCsr : Keeps Mirror (createUnbundledCsr : EdgeCall V Unit) := by
  intro s hs r s' h
  rw [createUnbundledCsr, modify_bind] at h
  -- up to the last line only the table changes, so the exported edges are still those of `s`
  rcases bind_cases h with ⟨_, t₁, h₁, h⟩ | ⟨e, h₁, -⟩
  · have hcsr₁ := (keeps_fillFirstColumn fun o i => o = s.outCsr ∧ i = s.inCsr).run h₁ ⟨rfl, rfl⟩
    rw [read_bind] at h
    rcases bind_cases h with ⟨_, t₂, h₂, h⟩ | ⟨e, h₂, -⟩
    · have hcsr₂ := (keeps_onTable (fun o i => o = s.outCsr ∧ i = s.inCsr) _).run h₂ hcsr₁
      rw [modify_bind] at h
      rcases bind_cases h with ⟨_, t₃, h₃, h⟩ | ⟨e, h₃, -⟩
      · obtain ⟨hout, hin⟩ :=
          (keeps_ensureTableCapacity (fun o i => o = s.outCsr ∧ i = s.inCsr) _).run h₃ hcsr₂
        cases h
        have ht₃ : t₃.Mirror := by
          unfold Mirror
          rw [hout, hin]
          exact hs
        refine mirror_rebuild ht₃ _ fun q hq => ?_
        obtain ⟨k, hk, rfl⟩ := mem_mapIdx.mp hq
        refine ⟨t₁.outCsr.batchExport[k], ?_, rfl, rfl⟩
        rw [hout, ← hcsr₁.1]
        exact getElem_mem hk
      · refine (keeps_ensureTableCapacity MutableCsr.Mirrored _).run h₃ ?_
        rw [hcsr₂.1, hcsr₂.2]
        exact hs
    · refine (keeps_onTable MutableCsr.Mirrored _).run h₂ ?_
      rw [hcsr₁.1, hcsr₁.2]
      exact hs
  · exact (keeps_fillFirstColumn MutableCsr.Mirrored).run h₁ hs

theorem mirror_addProperties (new : List (PropertyDef V)) : Keeps Mirror (addProperties new) := by
  intro s hs r s' h
  rw [addProperties, read_bind] at h
  split_ifs at h
  · exact (keeps_pure MutableCsr.Mirrored).run h hs
  · exact mirror_createBundledDefault.run h hs
  · exact mirror_createUnbundledCsr.run h hs
  · exact (keeps_onTable MutableCsr.Mirrored _).run h hs

end

section

theorem mirror_putBatch {rows : List (ℕ × ℕ × EdgeData V)}
    (hrun : putBatch rows t = some (r, t')) (h : t.Mirror)
    (hrows : ∀ q ∈ rows, q.1 < t.outCsr.size ↔ q.2.1 < t.inCsr.size) : t'.Mirror := by
  cases hrun
  exact h.batchPutEdges hrows

variable {rows : List (ℕ × ℕ × List V)}

theorem mirror_putBundled
    (hrows : ∀ q ∈ rows, q.1 < t.outCsr.size ↔ q.2.1 < t.inCsr.size) (h : t.Mirror)
    (hrun : putBundled rows t = some (r, t')) : t'.Mirror := by
  obtain ⟨entries, hentries, hrun⟩ := defined_bind_eq_some.mp hrun
  refine mirror_putBatch hrun h fun q hq => ?_
  obtain ⟨e, he, h1, h2⟩ := mem_of_mapM hentries hq
  rw [h1, h2]
  exact hrows e he

theorem mirror_putUnbundled
    (hrows : ∀ q ∈ rows, q.1 < t.outCsr.size ↔ q.2.1 < t.inCsr.size) (h : t.Mirror)
    (hrun : putUnbundled rows t = some (r, t')) : t'.Mirror := by
  rw [putUnbundled, read_bind] at hrun
  split_ifs at hrun
  · cases hrun
  · rw [modify_bind] at hrun
    have hput : ∀ r₁ t₁, putBatch
        (rows.mapIdx fun i q => (q.1, q.2.1, EdgeData.row (t.tableIdx + i)))
        { t with tableIdx := t.tableIdx + rows.length } = some (r₁, t₁) → t₁.Mirror := by
      intro r₁ t₁ h₁
      refine mirror_putBatch h₁ h fun q hq => ?_
      obtain ⟨k, hk, rfl⟩ := mem_mapIdx.mp hq
      exact hrows _ (getElem_mem hk)
    rcases bind_cases hrun with ⟨_, t₁, h₁, h₂⟩ | ⟨e, h₁, -⟩
    · exact (keeps_insertRows MutableCsr.Mirrored _ _).run h₂ (hput _ _ h₁)
    · exact hput _ _ h₁

theorem mem_filterInvalidEdges {srcNum dstNum : ℕ} {rows : List (BatchRow V srcNum dstNum)}
    {q : ℕ × ℕ × Option (List V)} (hq : q ∈ filterInvalidEdges rows) :
    q.1 < srcNum ∧ q.2.1 < dstNum := by
  obtain ⟨row, -, hrow⟩ := mem_filterMap.mp hq
  split at hrow
  · cases hrow
    exact ⟨Fin.isLt _, Fin.isLt _⟩
  · cases hrow

variable [PropertyValue V]

theorem mirror_batchAddEdges
    (hrows : ∀ q ∈ rows, q.1 < t.outCsr.size ↔ q.2.1 < t.inCsr.size) (h : t.Mirror)
    (hrun : batchAddEdges rows t = some (r, t')) : t'.Mirror := by
  have hkeep := keeps_reserveRows (fun o i => o = t.outCsr ∧ i = t.inCsr) rows.length
  rcases bind_cases hrun with ⟨_, t₁, h₁, h₂⟩ | ⟨e, h₁, -⟩
  · obtain ⟨hout, hin⟩ := hkeep.run h₁ ⟨rfl, rfl⟩
    rw [read_bind] at h₂
    have ht₁ : t₁.Mirror := by
      unfold Mirror
      rw [hout, hin]
      exact h
    rw [← hout, ← hin] at hrows
    split_ifs at h₂
    · cases h₂
    · exact mirror_putBundled hrows ht₁ h₂
    · exact mirror_putUnbundled hrows ht₁ h₂
  · exact (keeps_reserveRows MutableCsr.Mirrored _).run h₁ h

theorem mirror_batchAddRecords {srcNum dstNum : ℕ} {rows : List (BatchRow V srcNum dstNum)}
    (hout : ∀ v ≥ srcNum, ∀ n ∈ t.outCsr.list v, n.alive = false)
    (hin : ∀ v ≥ dstNum, ∀ n ∈ t.inCsr.list v, n.alive = false) (h : t.Mirror)
    (hrun : batchAddRecords rows t = some (r, t')) : t'.Mirror := by
  rw [batchAddRecords, modify_bind] at hrun
  have hresize : (t.outCsr.resize srcNum).Mirrored (t.inCsr.resize dstNum) := by
    intro v w
    rw [live_resize hout, live_resize hin, h v w]
  have hkeep := keeps_reserveRows
    (fun o i => o = t.outCsr.resize srcNum ∧ i = t.inCsr.resize dstNum)
    (filterInvalidEdges rows).length
  rcases bind_cases hrun with ⟨_, t₁, h₁, h₂⟩ | ⟨e, h₁, -⟩
  · obtain ⟨hout₁, hin₁⟩ := hkeep.run h₁ ⟨rfl, rfl⟩
    have ht₁ : t₁.Mirror := by
      unfold Mirror
      rw [hout₁, hin₁]
      exact hresize
    have hrows : ∀ q ∈ filterInvalidEdges rows, q.1 < t₁.outCsr.size ↔ q.2.1 < t₁.inCsr.size := by
      intro q hq
      obtain ⟨hsrc, hdst⟩ := mem_filterInvalidEdges hq
      simp [hout₁, hin₁, hsrc, hdst]
    rw [read_bind] at h₂
    split_ifs at h₂
    · obtain ⟨entries, hentries, h₂⟩ := defined_bind_eq_some.mp h₂
      refine mirror_putBatch h₂ ht₁ fun q hq => ?_
      obtain ⟨e, he, h1, h2⟩ := mem_of_mapM hentries hq
      rw [h1, h2]
      exact hrows e he
    · cases h₂
    · rw [modify_bind] at h₂
      have hput : ∀ r₂ t₂, putBatch ((filterInvalidEdges rows).mapIdx fun i q =>
          (q.1, q.2.1, EdgeData.row (t₁.tableIdx + i)))
          { t₁ with tableIdx := t₁.tableIdx + (filterInvalidEdges rows).length } =
            some (r₂, t₂) → t₂.Mirror := by
        intro r₂ t₂ h₃
        refine mirror_putBatch h₃ ht₁ fun q hq => ?_
        obtain ⟨k, hk, rfl⟩ := mem_mapIdx.mp hq
        exact hrows _ (getElem_mem hk)
      rcases bind_cases h₂ with ⟨_, t₂, h₃, h₄⟩ | ⟨e, h₃, -⟩
      · exact (keeps_insertBatchRows MutableCsr.Mirrored _ _).run h₄ (hput _ _ h₃)
      · exact hput _ _ h₃
  · exact (keeps_reserveRows MutableCsr.Mirrored _).run h₁ hresize

theorem mirror_ensureCapacity (srcCap dstCap capacity : ℕ) :
    Keeps Mirror (ensureCapacity srcCap dstCap capacity : EdgeCall V Unit) := by
  intro s hs r s' h
  refine (keeps_ensureTableCapacity MutableCsr.Mirrored _).run h fun v w => ?_
  have hgrow : ∀ (c : MutableCsr (EdgeData V)) (k v w : ℕ),
      (if c.size < k then c.resize k else c).live v w = c.live v w := by
    intro c k v w
    split_ifs with hk
    · refine live_resize (fun u hu n hn => ?_) v w
      rw [list_of_size_le (by omega)] at hn
      cases hn
    · rfl
  rw [hgrow, hgrow, hs v w]

theorem mirror_compact (compactCsr sort : Bool) (ts : ℕ) :
    Keeps Mirror (compact compactCsr sort ts : EdgeCall V Unit) := by
  have hout : Keeps Mirror (compactOut : EdgeCall V Unit) := by
    intro s hs r s' h
    cases h
    exact fun v w => (live_compact _ v w).trans (hs v w)
  have hin : Keeps Mirror (compactIn : EdgeCall V Unit) := by
    intro s hs r s' h
    cases h
    exact fun v w => (hs v w).trans (live_compact _ w v).symm
  have hboth : Keeps Mirror (compactBoth compactCsr : EdgeCall V Unit) := by
    unfold compactBoth
    split_ifs
    · exact hout.bind fun _ => hin
    · exact keeps_pure MutableCsr.Mirrored
  have hsort : Keeps Mirror (sortBoth sort ts : EdgeCall V Unit) := by
    unfold sortBoth
    split_ifs
    · refine keeps_modify MutableCsr.Mirrored fun s hs v w => ?_
      rw [live_batchSortByEdgeData, live_batchSortByEdgeData, hs v w]
    · exact keeps_pure MutableCsr.Mirrored
  exact hboth.bind fun _ => hsort.bind fun _ =>
    keeps_modify MutableCsr.Mirrored fun s hs => hs.resetTimestamp

end

end EdgeTable

end Neug.Storage
