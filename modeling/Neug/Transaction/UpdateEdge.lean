import Neug.Storage.EdgeReuse
import Neug.Transaction.DeleteEdges

/-! `UpdateTransaction::UpdateEdgeProperty` by offsets. The offsets that the views and
`record_to_csr_offset_pair` give count all entries of a list, the update counts the visible ones.
In a table with rows it writes the timestamp of the outgoing entry only. -/
namespace Neug.Transaction
open Neug.Lib Neug.Storage List Option

variable {V : Type}

namespace UpdateTransaction

variable [PropertyValue V] {s : UpdateTransaction V} {t : EdgeTable V} {τ : Triplet}
  {src dst ts o j col : ℕ} {n m : Nbr (EdgeData V)}

theorem exists_getData (hs : t.Sound ts) (ha : t.Addresses ts src dst o j n m)
    (hcol : col < t.properties.length) : ∃ old, t.getData col n.data = some old := by
  have hmem := mem_of_getElem? ha.out
  have hfits := hs.outFits src n hmem
  cases hd : n.data with
  | empty =>
    rw [hd, Fits] at hfits
    simp [hfits] at hcol
  | value v =>
    rw [hd] at hfits
    exact ⟨v, if_pos hfits.1⟩
  | row r =>
    rw [hd] at hfits
    have hb : isBundled t.properties = false := hfits
    have hlt : col < t.table.columns.length := (hs.columns hb).symm ▸ hcol
    have hroom := hs.room src n hmem ha.outVisible r hd _ (getElem_mem hlt)
    refine ⟨t.table.columns[col].cells[r], ?_⟩
    simp [EdgeTable.getData, hb, hlt]

theorem updateEdgeProperty_graph (ht : s.graph.edgeTables τ = some t) (hs : t.Sound ts)
    (ha : t.Addresses ts src dst o j n m) (hcol : col < t.properties.length)
    (hsv : s.graph.isValidLid τ.1 src ts = some true)
    (hdv : s.graph.isValidLid τ.2.1 dst ts = some true) (value : V) :
    (updateEdgeProperty τ src dst o j col value ts s).map (fun p => (p.1, p.2.graph)) =
      (EdgeTable.updateEdgeProperty src dst o j col value ts t).map
        fun p => ((p.1.mapError .edge).map fun _ => true, s.withTable τ p.2) := by
  obtain ⟨old, hold⟩ := exists_getData hs ha hcol
  simp only [updateEdgeProperty, checkEdgeUpdate, Call.bind_apply, edgeTable_apply ht,
    if_neg (not_le.mpr hcol), requireLid_apply hsv, requireLid_apply hdv, Call.defined, ha.out,
    map_some, hold, onGraph, PropertyGraph.onEdge, ht, bind_some]
  cases EdgeTable.updateEdgeProperty src dst o j col value ts t with
  | none => rfl
  | some p =>
    obtain ⟨r, t'⟩ := p
    cases r <;> rfl

/-- Every value of the type of the column can be written to the edge: the edge has it in both
views, nothing else has changed, and from either end the edge can be used again. -/
def UpdatesOne (s : UpdateTransaction V) (past : EdgeTable.Past) (τ : Triplet)
    (ts src dst o j col : ℕ) : Prop :=
  ∃ t n m, s.graph.edgeTables τ = some t ∧ t.Addresses ts src dst o j n m ∧
    ∀ value, t.HasType col value → ∃ s' t',
      updateEdgeProperty τ src dst o j col value ts s = some (.ok true, s') ∧
      s'.graph = s.withTable τ t' ∧ t.Changes t' ts src dst o j col value n m ∧
      t'.Again past ts src dst o j col

end UpdateTransaction

theorem sound_knowsTwice : knowsTwice.Sound 4 := by
  have hout : ∀ v, ∀ n ∈ knowsTwice.outCsr.list v, ∀ r, n.data ≠ .row r := by
    intro v n hn r
    rcases v with _ | _ | _ | v <;> simp [knowsTwice, MutableCsr.list] at hn
    rcases hn with rfl | rfl | rfl <;> simp
  have hin : ∀ v, ∀ n ∈ knowsTwice.inCsr.list v, ∀ r, n.data ≠ .row r := by
    intro v n hn r
    rcases v with _ | _ | _ | v <;> simp [knowsTwice, MutableCsr.list] at hn
    · rcases hn with rfl | rfl <;> simp
    · simp [hn]
  have hwf := wellFormed_knowsTwice
  exact {
    outFits := hwf.outFits
    inFits := hwf.inFits
    outDegree := hwf.outDegree
    inDegree := hwf.inDegree
    csrType := fun p hp _ => (cons.inj hp).1 ▸ rfl
    outTyped := fun p hp v n _ w _ => (cons.inj hp).1 ▸ rfl
    inTyped := fun p hp v n _ w _ => (cons.inj hp).1 ▸ rfl
    columns := fun h => absurd h (by decide)
    room := fun v n hn _ r hr => absurd hr (hout v n hn r)
    outRows := fun v k _ _ r n _ hn _ _ _ hr => absurd hr (hout v n (mem_of_getElem? hn) r)
    inRows := fun v k _ _ r n _ hn _ _ _ hr => absurd hr (hin v n (mem_of_getElem? hn) r) }

def updatedKnows (t : EdgeTable ℕ) (o j : ℕ) : Option (EdgeTable ℕ) := do
  let p ← UpdateTransaction.updateEdgeProperty (0, 0, 0) 0 2 o j 0 9 4 (.start (threePeople t))
  p.2.graph.edgeTables (0, 0, 0)

section

open EdgeTable

end

end Neug.Transaction
