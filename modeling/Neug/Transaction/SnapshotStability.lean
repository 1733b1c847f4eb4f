import Neug.Storage.SnapshotReads
import Neug.Transaction.InsertTransaction

/-! Readers at a timestamp `r` while records of insert transactions with later timestamps are
ingested, in any order and interleaving. -/
namespace Neug.Transaction
open Neug.Lib Neug.Storage List Option Function

variable {V : Type} [DecidableEq V] {r : ℕ} {g g' : PropertyGraph V}

/-- What a reader at `r` finds is the same in both graphs: the vertices of every label with keys
and properties, the ids of keys, and the edges of every triplet from both ends. -/
structure SameSnapshot (r : ℕ) (g g' : PropertyGraph V) : Prop where
  vertices : ∀ label, g'.vertices label r = g.vertices label r
  getLid : ∀ label oid, g'.getLid label oid r = g.getLid label oid r
  outgoing : ∀ τ, (g'.edgeTables τ).map (·.outgoing r) = (g.edgeTables τ).map (·.outgoing r)
  incoming : ∀ τ, (g'.edgeTables τ).map (·.incoming r) = (g.edgeTables τ).map (·.incoming r)

theorem SameSnapshot.refl (r : ℕ) (g : PropertyGraph V) : SameSnapshot r g g :=
  ⟨fun _ => rfl, fun _ _ => rfl, fun _ => rfl, fun _ => rfl⟩

theorem SameSnapshot.trans {g'' : PropertyGraph V} (h : SameSnapshot r g g')
    (h' : SameSnapshot r g' g'') : SameSnapshot r g g'' where
  vertices label := (h'.vertices label).trans (h.vertices label)
  getLid label oid := (h'.getLid label oid).trans (h.getLid label oid)
  outgoing τ := (h'.outgoing τ).trans (h.outgoing τ)
  incoming τ := (h'.incoming τ).trans (h.incoming τ)

structure Allotted (r : ℕ) (g : PropertyGraph V) : Prop where
  vertices : ∀ (label : ℕ) (t : VertexTable V), g.vertexTables[label]? = some t → t.FreeBeyond r
  edges : ∀ τ t, g.edgeTables τ = some t → t.RowsBelow

structure Ingest (V : Type) where
  timestamp : ℕ
  redo : InsertRedo V
  bounded : timestamp < 2 ^ 32

def ingestStep (g : PropertyGraph V) (a : Ingest V) : Option (PropertyGraph V) :=
  (ingestRedo a.timestamp a.redo).after g

def LaterThan (r : ℕ) (_ : PropertyGraph V) (a : Ingest V) : Prop := r < a.timestamp

/-- The record does not make the tracker of its label move the start of its array, as the
insertion of a deleted key with an id below `init_vertex_num_` does. -/
def staysInPlace (g : PropertyGraph V) (a : Ingest V) : Bool :=
  match a.redo with
  | .insertVertex label oid _ =>
    (g.vertexTables[label]?).all fun t => t.InsertsInPlace oid a.timestamp
  | .insertEdge .. => true

instance (r : ℕ) (g : PropertyGraph V) (a : Ingest V) : Decidable (LaterThan r g a) :=
  inferInstanceAs (Decidable (r < a.timestamp))

theorem snapshot_set_vertexTable {label : ℕ} {t t' : VertexTable V}
    (ht : g.vertexTables[label]? = some t) (h : VertexTable.SameReads r t t') :
    SameSnapshot r g { g with vertexTables := g.vertexTables.set label t' } := by
  have hlt := (List.getElem?_eq_some_iff.mp ht).1
  refine ⟨fun label' => ?_, fun label' oid => ?_, fun _ => rfl, fun _ => rfl⟩
  · unfold PropertyGraph.vertices
    by_cases hl : label = label'
    · subst hl
      rw [getElem?_set_self hlt, ht, map_some, map_some, h.vertices]
    · rw [getElem?_set_ne hl]
  · unfold PropertyGraph.getLid
    by_cases hl : label = label'
    · subst hl
      rw [getElem?_set_self hlt, ht, bind_some, bind_some, h.getIndex]
    · rw [getElem?_set_ne hl]

omit [DecidableEq V] in
theorem map_update_edgeTable {α : Type} {f : EdgeTable V → α} {τ : Triplet} {t t' : EdgeTable V}
    (ht : g.edgeTables τ = some t) (h : f t' = f t) (τ' : Triplet) :
    (update g.edgeTables τ (some t') τ').map f = (g.edgeTables τ').map f := by
  by_cases hτ : τ' = τ
  · rw [hτ, update_self, ht, map_some, map_some, h]
  · rw [update_of_ne hτ]

theorem snapshot_step {a : Ingest V} (hwf : Allotted r g) (hlater : LaterThan r g a)
    (hplace : staysInPlace g a = true) (h : ingestStep g a = some g') :
    SameSnapshot r g g' ∧ Allotted r g' := by
  obtain ⟨ts, redo, hts⟩ := a
  obtain ⟨res, hrun⟩ := Call.after_eq_some h
  cases redo with
  | insertVertex label oid props =>
    obtain ⟨t, q, t', ht, hadd, rfl, -⟩ := ingestVertex_run hrun
    have hplace : t.InsertsInPlace oid ts := by simpa [staysInPlace, ht] using hplace
    obtain ⟨hsame, hfree⟩ := VertexTable.sameReads_addVertex hlater (Nat.le_pred_of_lt hts)
      (hwf.vertices label t ht) hplace hadd
    refine ⟨snapshot_set_vertexTable ht hsame, fun label' t₁ ht₁ => ?_, hwf.edges⟩
    by_cases hl : label = label'
    · subst hl
      rw [getElem?_set_self (List.getElem?_eq_some_iff.mp ht).1, some_inj] at ht₁
      rwa [← ht₁]
    · rw [getElem?_set_ne hl] at ht₁
      exact hwf.vertices label' t₁ ht₁
  | insertEdge srcLabel src dstLabel dst edgeLabel props =>
    obtain ⟨srcLid, dstLid, -, -, ⟨rfl, -⟩ | ⟨t, q, t', ht, hadd, rfl, -⟩⟩ := ingestEdge_run hrun
    · exact ⟨.refl r _, hwf⟩
    · obtain ⟨hsame, hrows⟩ := EdgeTable.sameReads_addEdge hlater (hwf.edges _ t ht) hadd
      refine ⟨⟨fun _ => rfl, fun _ _ => rfl, map_update_edgeTable ht hsame.outgoing,
        map_update_edgeTable ht hsame.incoming⟩, hwf.vertices, fun τ t₁ ht₁ => ?_⟩
      dsimp only at ht₁
      by_cases hτ : τ = (srcLabel, dstLabel, edgeLabel)
      · subst hτ
        rw [update_self, some_inj] at ht₁
        rwa [← ht₁]
      · rw [update_of_ne hτ] at ht₁
        exact hwf.edges τ t₁ ht₁

/-- Whatever later transactions ingest in place, a reader at `r` finds what was there before. -/
theorem snapshot_stable {g₀ : PropertyGraph V} (hwf : Allotted r g₀)
    (h : Reach (· = g₀) ingestStep (fun g a => LaterThan r g a ∧ staysInPlace g a = true) g) :
    SameSnapshot r g₀ g := by
  have hinv : SameSnapshot r g₀ g ∧ Allotted r g := by
    refine Reach.invariant (J := fun g => SameSnapshot r g₀ g ∧ Allotted r g)
      (fun _ _ => trivial) ?_ ?_ h
    · rintro g rfl
      exact ⟨.refl r g, hwf⟩
    · rintro g a g' - ⟨hsame, hwf⟩ ⟨hlater, hplace⟩ hstep
      obtain ⟨hsame', hwf'⟩ := snapshot_step hwf hlater hplace hstep
      exact ⟨hsame.trans hsame', hwf'⟩
  exact hinv.1

/-- Two vertices of one label that are older than the array of the tracker, which has two places.
The first has been deleted. -/
def firstDeleted : PropertyGraph ℕ where
  schema := ⟨["v"], ∅, [⟨some (.uint64, "id"), []⟩], [], ∅, ∅⟩
  vertexTables := [⟨[7, 8], 4, some (.openInMemory [] []),
    ⟨2, 4, [deletedTimestamp, deletedTimestamp], some {0}, rfl⟩⟩]
  edgeTables := fun _ => none

theorem allotted_firstDeleted : Allotted 3 firstDeleted := by
  refine ⟨fun label t ht => ?_, fun τ t ht => by simp [firstDeleted] at ht⟩
  have ht' : label = 0 := by
    have := (List.getElem?_eq_some_iff.mp ht).1
    simp only [firstDeleted, length_singleton] at this
    omega
  subst ht'
  cases ht
  intro u hu
  replace hu : 2 ≤ u := hu
  by_cases hmax : 4 < u
  · rw [VertexTimestamp.isVertexValid, if_pos hmax]
    decide
  · have hcases : u = 2 ∨ u = 3 ∨ u = 4 := by omega
    rcases hcases with rfl | rfl | rfl <;> decide

/-- A new key gets an id of its own at timestamp 5, and a reader at 3 does not see it. -/
theorem snapshot_stable_newKey : ∃ g, Reach (· = firstDeleted) ingestStep
        (fun g a => LaterThan 3 g a ∧ staysInPlace g a = true) g ∧
      g.vertices 0 5 ≠ firstDeleted.vertices 0 5 ∧ SameSnapshot 3 firstDeleted g := by
  have hrun : (execute (guarded (fun g a => LaterThan 3 g a ∧ staysInPlace g a = true) ingestStep)
      [⟨5, .insertVertex 0 9 [], by decide⟩] firstDeleted).any
      (fun g => g.vertices 0 5 ≠ firstDeleted.vertices 0 5) = true := by decide +kernel
  have hinit : Reach (· = firstDeleted) ingestStep
      (fun g a => LaterThan 3 g a ∧ staysInPlace g a = true) firstDeleted := .init rfl
  obtain ⟨g, hreach, htest⟩ := Reach.exists_of_execute _ _ hinit hrun
  exact ⟨g, hreach, htest, snapshot_stable allotted_firstDeleted hreach⟩

/-- The deleted key is inserted again at timestamp 5. The array slides down to the id of the key,
and the second vertex, which a reader at 3 saw, is gone. -/
theorem snapshot_unstable : Allotted 3 firstDeleted ∧
      ∃ g, Reach (· = firstDeleted) ingestStep (LaterThan 3) g ∧
        ¬ SameSnapshot 3 firstDeleted g := by
  have hrun : (execute (guarded (LaterThan 3) ingestStep)
      [⟨5, .insertVertex 0 7 [], by decide⟩] firstDeleted).any
      (fun g => g.vertices 0 3 ≠ firstDeleted.vertices 0 3) = true := by decide +kernel
  have hinit : Reach (· = firstDeleted) ingestStep (LaterThan 3) firstDeleted := .init rfl
  obtain ⟨g, hreach, htest⟩ := Reach.exists_of_execute _ _ hinit hrun
  exact ⟨allotted_firstDeleted, g, hreach, fun h => htest (h.vertices 0)⟩

end Neug.Transaction
