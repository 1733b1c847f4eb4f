import Neug.Storage.EdgeRemoval
import Neug.Transaction.UpdateTransaction

/-! `UpdateTransaction::DeleteEdges`: the loop counts the visible edges of the source and takes
the count for the offset of the edge, while the other end is found by a search. -/
namespace Neug.Transaction
open Neug.Lib Neug.Storage List Option EdgeTable

variable {V : Type}

namespace UpdateTransaction

variable {s : UpdateTransaction V} {t : EdgeTable V} {τ : Triplet} {past : EdgeTable.Past}
  {src dst ts : ℕ}

theorem edgeTable_apply (ht : s.graph.edgeTables τ = some t) : edgeTable τ s = some (.ok t, s) := by
  simp [edgeTable, ht]

theorem requireLid_apply {label lid : ℕ} (hvalid : s.graph.isValidLid label lid ts = some true) :
    requireLid label lid ts s = some (.ok (), s) := by
  simp only [requireLid, Call.bind_apply, Call.read, hvalid]
  rfl

def withTable (s : UpdateTransaction V) (τ : Triplet) (t : EdgeTable V) : PropertyGraph V :=
  { s.graph with edgeTables := Function.update s.graph.edgeTables τ (some t) }

theorem withTable_self (ht : s.graph.edgeTables τ = some t) : s.withTable τ t = s.graph := by
  simp [withTable, ← ht]

variable [PropertyValue V]

/-- What the loop does to the graph: the deletions of its rounds on the edge table. -/
theorem forEdges_graph (past : EdgeTable.Past) (dst ts : ℕ) {l : List (Nbr (EdgeData V))}
    {is : List ℕ} {k : ℕ} (ht : s.graph.edgeTables τ = some t) (hsorted : is.Pairwise (· < ·))
    (hk : ∀ i ∈ is, k ≤ i) (hl : ∀ i ∈ is, (t.outCsr.list src)[i]? = l[i]?)
    (hlen : ∀ i ∈ is, i < l.length) :
    (forEdges τ src dst ts (deleteEdgeAt past τ src dst ts) is k s).map
        (fun p => (p.1, p.2.graph)) =
      (deletePlaces past src dst ts (rounds l ts dst is k) t).map
        fun p => (p.1.mapError .edge, s.withTable τ p.2) := by
  induction is generalizing s t k with
  | nil =>
    simp only [rounds, deletePlaces, Call.pure_apply, map_some, withTable_self ht]
    rfl
  | cons i is ih =>
    obtain ⟨hfirst, hrest⟩ := pairwise_cons.mp hsorted
    have hi : i < l.length := hlen i mem_cons_self
    have hn : (t.outCsr.list src)[i]? = some l[i] := by
      rw [hl i mem_cons_self, getElem?_eq_getElem hi]
    have hik : k ≤ i := hk i mem_cons_self
    have hlen' := fun j hj => hlen j (mem_cons_of_mem i hj)
    have hl' := fun j hj => hl j (mem_cons_of_mem i hj)
    rw [forEdges, rounds, getElem?_eq_getElem hi]
    simp only [Call.bind_apply, edgeTable_apply ht, Call.defined, hn, map_some]
    by_cases hvis : l[i].timestamp ≤ ts
    · by_cases hdst : l[i].neighbor = dst
      · simp only [hvis, ↓reduceIte, hdst, deletePlaces, Call.bind_apply, deleteEdgeAt,
          edgeTable_apply ht, Call.defined, Call.read, hn, map_some]
        cases hsearch : t.searchInOffset past src i ts l[i] with
        | none => rfl
        | some ie =>
          have hlt : k < (t.outCsr.list src).length := by
            have := (List.getElem?_eq_some_iff.mp hn).1
            omega
          obtain ⟨r, t₁, hdel, ins, hkilled⟩ := deleteEdge_run hlt dst ie ts
          simp only [map_some, onGraph, PropertyGraph.onEdge, ht, bind_some, hdel]
          cases r with
          | error e => rfl
          | ok u =>
            have hlist : ∀ j ∈ is, (t₁.outCsr.list src)[j]? = l[j]? := by
              intro j hj
              have hjk : j ≠ k := by
                have := hfirst j hj
                omega
              rw [hkilled.outList src j, ← hl' j hj]
              simp [hjk]
            have hnext := ih (s := ⟨s.withTable τ t₁, .removeEdge τ src dst k ie :: s.undoLogs⟩)
              (k := k + 1) (by simp [withTable]) hrest
              (fun j hj => by have := hfirst j hj; omega) hlist hlen'
            simp only [withTable, Function.update_idem] at hnext
            exact hnext
      · simp only [hvis, hdst]
        exact ih ht hrest (fun j hj => by have := hfirst j hj; omega) hl' hlen'
    · simp only [hvis]
      exact ih ht hrest (fun j hj => hk j (mem_cons_of_mem i hj)) hl' hlen'

theorem deleteEdges_graph (past : EdgeTable.Past) (ht : s.graph.edgeTables τ = some t)
    (hsrc : src < t.outCsr.size) (hdst : dst < t.inCsr.size)
    (hsv : s.graph.isValidLid τ.1 src ts = some true)
    (hdv : s.graph.isValidLid τ.2.1 dst ts = some true) :
    (deleteEdges past τ src dst ts s).map (fun p => (p.1, p.2.graph)) =
      (deletePlaces past src dst ts (places (t.outCsr.list src) ts dst) t).map
        fun p => ((p.1.mapError .edge).map fun _ => true, s.withTable τ p.2) := by
  have hloop := forEdges_graph past dst ts (l := t.outCsr.list src) ht
    pairwise_lt_range (fun i _ => Nat.zero_le i) (fun i _ => rfl)
    (fun i hi => mem_range.mp hi)
  rw [rounds_eq_places] at hloop
  have hsize : ¬ (t.outCsr.size ≤ src ∨ t.inCsr.size ≤ dst) := by omega
  simp only [deleteEdges, Call.bind_apply, requireLid_apply hsv, requireLid_apply hdv, edgeTable_apply ht,
    if_neg hsize]
  cases hfor : forEdges τ src dst ts (deleteEdgeAt past τ src dst ts)
      (range (t.outCsr.list src).length) 0 s with
  | none =>
    rw [hfor] at hloop
    rw [map_eq_none_iff.mp hloop.symm]
    rfl
  | some p =>
    obtain ⟨r, s'⟩ := p
    rw [hfor] at hloop
    obtain ⟨q, hq, heq⟩ := map_eq_some_iff.mp hloop.symm
    obtain ⟨hr, hg⟩ := Prod.mk.inj heq
    rw [hq, map_some, hr, hg]
    cases r <;> rfl

/-- Between two states of a transaction the edges from `src` to `dst` have disappeared from both
views of a triplet, for readers from `ts` on, and nothing else has changed. -/
def Removes (s s' : UpdateTransaction V) (τ : Triplet) (src dst ts : ℕ) : Prop :=
  ∃ t t', s.graph.edgeTables τ = some t ∧ s'.graph = s.withTable τ t' ∧ t.Without t' src dst ts

end UpdateTransaction

def threePeople (t : EdgeTable ℕ) : PropertyGraph ℕ where
  schema := ⟨["person"], ∅, [⟨some (.int64, "id"), []⟩], ["knows"], ∅, ∅⟩
  vertexTables := [⟨[10, 11, 12], 3, some .empty, ⟨0, 3, [1, 1, 1], none, rfl⟩⟩]
  edgeTables := fun τ => if τ = (0, 0, 0) then some t else none

def knowsTwice : EdgeTable ℕ :=
  { EdgeTable.create [⟨"since", .uint64, 0, false⟩] with
    outCsr := ⟨[[⟨1, 2, .value 5⟩, ⟨2, 2, .value 6⟩, ⟨1, 3, .value 7⟩], [], []], 3, 0⟩
    inCsr := ⟨[[], [⟨0, 2, .value 5⟩, ⟨0, 3, .value 7⟩], [⟨0, 2, .value 6⟩]], 3, 0⟩ }

theorem wellFormed_knowsTwice : knowsTwice.WellFormed 4 := by
  refine ⟨fun v w => ?_, fun v => ?_, fun v => ?_, fun v => ?_, fun v => ?_, fun v => ?_,
    fun v => ?_⟩
  · rcases v with _ | _ | _ | v <;> rcases w with _ | _ | _ | w <;> rfl
  all_goals
    rcases v with _ | _ | _ | v
    all_goals simp [knowsTwice, create, MutableCsr.list, Fits, isBundled, int32Max]

def withoutKnows (t : EdgeTable ℕ) : Option (EdgeTable ℕ) := do
  let p ← UpdateTransaction.deleteEdges ⟨fun _ => 0, fun _ => 0⟩ (0, 0, 0) 0 1 4
    (.start (threePeople t))
  p.2.graph.edgeTables (0, 0, 0)

section

open EdgeTable

end

end Neug.Transaction
