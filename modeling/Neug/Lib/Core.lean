import Mathlib

/-! The `k`-core of a graph: subgraphs of minimum degree `k`, and an order of removal that bounds
them. -/
namespace Neug.Lib.Core
open Finset

/-- Vertex `v` lies in a subgraph whose minimum degree is at least `k`. -/
def InCore {V : Type} (G : SimpleGraph V) (k : ℕ) (v : V) : Prop :=
  ∃ H : G.Subgraph, v ∈ H.verts ∧ ∀ u ∈ H.verts, k ≤ (H.neighborSet u).ncard

/-- Vertex `v` lies in a set in which every vertex has at least `k` of its neighbours. -/
def Supported {V : Type} [DecidableEq V] (N : V → Finset V) (k : ℕ) (v : V) : Prop :=
  ∃ S : Finset V, v ∈ S ∧ ∀ u ∈ S, k ≤ (N u ∩ S).card

/-- If every vertex removed so far had at most `d` neighbours left, and `d` does not fall along the
order, then no set supports more than `d` at the vertex removed last: look at the vertex of the
set that goes first. -/
theorem Supported.le {V : Type} [DecidableEq V] {N : V → Finset V} (order : ℕ → V) (d : ℕ → ℕ)
    {i k : ℕ} (hlate : ∀ p ≤ i, (N (order p) \ (range p).image order).card ≤ d p)
    (hmono : ∀ p ≤ i, d p ≤ d i) (h : Supported N k (order i)) : k ≤ d i := by
  obtain ⟨S, hi, hS⟩ := h
  have hex : ∃ p, order p ∈ S := ⟨i, hi⟩
  let p := Nat.find hex
  have hp : order p ∈ S := Nat.find_spec hex
  have hpi : p ≤ i := Nat.find_min' hex hi
  have hsub : N (order p) ∩ S ⊆ N (order p) \ (range p).image order := by
    intro x hx
    obtain ⟨hxN, hxS⟩ := mem_inter.mp hx
    refine mem_sdiff.mpr ⟨hxN, ?_⟩
    intro himage
    obtain ⟨q, hq, rfl⟩ := mem_image.mp himage
    exact Nat.find_min hex (mem_range.mp hq) hxS
  calc k ≤ (N (order p) ∩ S).card := hS _ hp
    _ ≤ (N (order p) \ (range p).image order).card := card_le_card hsub
    _ ≤ d p := hlate p hpi
    _ ≤ d i := hmono p hpi

/-- On the vertices below `n`, subgraphs and supporting sets give the same numbers. -/
theorem inCore_iff_supported {n : ℕ} {G : SimpleGraph (Fin n)} {N : ℕ → Finset ℕ}
    (hlt : ∀ u, ∀ x ∈ N u, x < n) (hN : ∀ u v : Fin n, G.Adj u v ↔ v.val ∈ N u) (k : ℕ)
    (v : Fin n) : InCore G k v ↔ Supported N k v := by
  classical
  constructor
  · rintro ⟨H, hv, hH⟩
    refine ⟨H.verts.toFinset.image Fin.val, ?_, ?_⟩
    · exact mem_image.mpr ⟨v, Set.mem_toFinset.mpr hv, rfl⟩
    · intro u hu
      obtain ⟨a, ha, rfl⟩ := mem_image.mp hu
      have ha := Set.mem_toFinset.mp ha
      have hsub : Fin.val '' H.neighborSet a ⊆ ↑(N a ∩ H.verts.toFinset.image Fin.val) := by
        rintro _ ⟨b, hb, rfl⟩
        refine mem_coe.mpr (mem_inter.mpr ⟨(hN a b).mp hb.adj_sub, ?_⟩)
        exact mem_image.mpr ⟨b, Set.mem_toFinset.mpr (H.edge_vert hb.symm), rfl⟩
      calc k ≤ (H.neighborSet a).ncard := hH a ha
        _ = (Fin.val '' H.neighborSet a).ncard :=
          (Set.ncard_image_of_injective _ Fin.val_injective).symm
        _ ≤ (N a ∩ H.verts.toFinset.image Fin.val).card := by
          rw [← Set.ncard_coe_finset]
          exact Set.ncard_le_ncard hsub (finite_toSet _)
  · rintro ⟨S, hv, hS⟩
    refine ⟨(⊤ : G.Subgraph).induce {a | a.val ∈ S}, hv, ?_⟩
    intro u hu
    have hsub : (↑(N u ∩ S) : Set ℕ) ⊆
        Fin.val '' ((⊤ : G.Subgraph).induce {a | a.val ∈ S}).neighborSet u := by
      intro x hx
      obtain ⟨hxN, hxS⟩ := mem_inter.mp (mem_coe.mp hx)
      refine ⟨⟨x, hlt _ x hxN⟩, ?_, rfl⟩
      exact ⟨hu, hxS, (hN u ⟨x, hlt _ x hxN⟩).mpr hxN⟩
    calc k ≤ (N u ∩ S).card := hS u hu
      _ = (↑(N u ∩ S) : Set ℕ).ncard := (Set.ncard_coe_finset _).symm
      _ ≤ (Fin.val '' ((⊤ : G.Subgraph).induce {a | a.val ∈ S}).neighborSet u).ncard :=
        Set.ncard_le_ncard hsub (Set.toFinite _)
      _ = (((⊤ : G.Subgraph).induce {a | a.val ∈ S}).neighborSet u).ncard :=
        Set.ncard_image_of_injective _ Fin.val_injective

end Neug.Lib.Core
