import Neug.Storage.EdgeMirror

/-! What `EdgeTable::AddEdge` does: the number of a row is taken first, then the incoming and the
outgoing CSR are written, and the row last. -/
namespace Neug.Storage
open Neug.Lib Call

namespace EdgeTable

variable {V : Type} {t t' : EdgeTable V} {src dst ts : ℕ} {d : EdgeData V} {edgeData : List V}
  {res : Except EdgeError Unit}

def entryData (t : EdgeTable V) (edgeData : List V) : Option (EdgeData V) :=
  if isBundled t.properties then t.bundledData edgeData
  else if t.properties.length = edgeData.length then t.rowData t.tableIdx
  else none

def claimRow (t : EdgeTable V) : EdgeTable V :=
  { t with tableIdx := if isBundled t.properties then t.tableIdx else t.tableIdx + 1 }

def writeRow (t : EdgeTable V) (edgeData : List V) :
    Option (Table V × Except TableError Unit) :=
  if isBundled t.properties then some (t.table, .ok ()) else t.table.insert t.tableIdx edgeData

def pushIn (t : EdgeTable V) (src dst : ℕ) (d : EdgeData V) (ts : ℕ) : EdgeTable V :=
  { t with inCsr := t.inCsr.push dst ⟨src, ts, d⟩ }

def pushOut (t : EdgeTable V) (src dst : ℕ) (d : EdgeData V) (ts : ℕ) : EdgeTable V :=
  { t with outCsr := t.outCsr.push src ⟨dst, ts, d⟩ }

/-- Either the incoming list is missing, or the outgoing one, or both entries are written. -/
theorem putBoth_run (h : putBoth src dst d ts t = some (res, t')) :
    (t.inCsr.size ≤ dst ∧ t' = t ∧ res ≠ .ok ()) ∨
      dst < t.inCsr.size ∧
        ((t.outCsr.size ≤ src ∧ t' = t.pushIn src dst d ts ∧ res ≠ .ok ()) ∨
          src < t.outCsr.size ∧ t' = (t.pushIn src dst d ts).pushOut src dst d ts ∧
            res = .ok ()) := by
  rcases bind_cases h with ⟨_, t₁, hin, hout⟩ | ⟨e, hin, rfl⟩
  · rcases onIn_cases hin with ⟨c, hc, -, rfl⟩ | ⟨e, -, hr, -⟩
    · unfold MutableCsr.putEdge at hc
      split_ifs at hc with hdst
      cases hc
      refine .inr ⟨not_le.mp hdst, ?_⟩
      rcases onOut_cases hout with ⟨c, hc, rfl, rfl⟩ | ⟨e, he, rfl, rfl⟩
      · unfold MutableCsr.putEdge at hc
        split_ifs at hc with hsrc
        cases hc
        exact .inr ⟨not_le.mp hsrc, rfl, rfl⟩
      · unfold MutableCsr.putEdge at he
        split_ifs at he with hsrc
        exact .inl ⟨hsrc, rfl, by simp⟩
    · cases hr
  · rcases onIn_cases hin with ⟨c, -, hr, -⟩ | ⟨e, he, -, rfl⟩
    · cases hr
    · unfold MutableCsr.putEdge at he
      split_ifs at he with hdst
      exact .inl ⟨hdst, rfl, by simp⟩

theorem onTable_cases {f : Table V → Option (Table V × Except TableError Unit)}
    (h : onTable f t = some (res, t')) :
    ∃ p, f t.table = some p ∧ t' = { t with table := p.1 } ∧ (res = .ok () ↔ p.2 = .ok ()) := by
  obtain ⟨p, hp, heq⟩ := Option.map_eq_some_iff.mp h
  cases heq
  refine ⟨p, hp, rfl, ?_⟩
  cases p.2 <;> simp

/-- What `AddEdge` may do: refuse the number of values, take a row and stop at one of the CSRs, or
write all of it, where the row may still fail. -/
theorem addEdge_run (h : addEdge src dst edgeData ts t = some (res, t')) :
    (t.entryData edgeData = none ∧ t' = t ∧ res ≠ .ok ()) ∨
      ∃ d, t.entryData edgeData = some d ∧
        ((t.inCsr.size ≤ dst ∧ t' = t.claimRow ∧ res ≠ .ok ()) ∨
          dst < t.inCsr.size ∧
            ((t.outCsr.size ≤ src ∧ t' = t.claimRow.pushIn src dst d ts ∧ res ≠ .ok ()) ∨
              src < t.outCsr.size ∧ ∃ p, t.writeRow edgeData = some p ∧
                t' = { (t.claimRow.pushIn src dst d ts).pushOut src dst d ts with
                  table := p.1 } ∧ (res = .ok () ↔ p.2 = .ok ()))) := by
  rw [addEdge, read_bind] at h
  split_ifs at h with hb
  · rw [addBundledEdge] at h
    obtain ⟨d, hd, h⟩ := defined_bind_eq_some.mp h
    have hclaim : t.claimRow = t := by
      unfold claimRow
      rw [if_pos hb]
    refine .inr ⟨d, by rw [entryData, if_pos hb, hd], ?_⟩
    rw [hclaim]
    rcases putBoth_run h with ⟨hdst, rfl, hres⟩ | ⟨hdst, ⟨hsrc, rfl, hres⟩ | ⟨hsrc, rfl, rfl⟩⟩
    · exact .inl ⟨hdst, rfl, hres⟩
    · exact .inr ⟨hdst, .inl ⟨hsrc, rfl, hres⟩⟩
    · exact .inr ⟨hdst, .inr ⟨hsrc, _, by rw [writeRow, if_pos hb], rfl, by simp⟩⟩
  · rw [addUnbundledEdge, read_bind] at h
    split_ifs at h with hlen
    · obtain ⟨rfl, rfl⟩ := Prod.mk.inj (Option.some.inj h)
      exact .inl ⟨by rw [entryData, if_neg hb, if_neg hlen], rfl, by simp⟩
    · rw [modify_bind] at h
      obtain ⟨d, hd, h⟩ := defined_bind_eq_some.mp h
      have hclaim : t.claimRow = { t with tableIdx := t.tableIdx + 1 } := by
        unfold claimRow
        rw [if_neg hb]
      refine .inr ⟨d, by rw [entryData, if_neg hb, if_pos (not_not.mp hlen), hd], ?_⟩
      rw [hclaim]
      rcases bind_cases h with ⟨_, t₁, hput, hrow⟩ | ⟨e, hput, rfl⟩
      · rcases putBoth_run hput with ⟨-, -, hres⟩ | ⟨hdst, ⟨-, -, hres⟩ | ⟨hsrc, rfl, -⟩⟩
        · exact absurd rfl hres
        · exact absurd rfl hres
        · obtain ⟨p, hp, rfl, hres⟩ := onTable_cases hrow
          exact .inr ⟨hdst, .inr ⟨hsrc, p, by rw [writeRow, if_neg hb]; exact hp, rfl, hres⟩⟩
      · rcases putBoth_run hput with ⟨hdst, rfl, -⟩ | ⟨hdst, ⟨hsrc, rfl, -⟩ | ⟨-, -, hres⟩⟩
        · exact .inl ⟨hdst, rfl, by simp⟩
        · exact .inr ⟨hdst, .inl ⟨hsrc, rfl, by simp⟩⟩
        · cases hres

end EdgeTable

end Neug.Storage
