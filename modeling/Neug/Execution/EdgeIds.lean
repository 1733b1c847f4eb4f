import Mathlib.Tactic

/-! The ids that are reported for edges: a label triple and two vids packed into 64 bits. -/
namespace Neug.Execution

/-- `generate_edge_label_id`. -/
def generateEdgeLabelId (srcLabel dstLabel edgeLabel : BitVec 8) : BitVec 32 :=
  ((srcLabel.setWidth 32 <<< 8 ||| dstLabel.setWidth 32) <<< 8) ||| edgeLabel.setWidth 32

/-- `encode_unique_edge_id`. A vid has 32 bits, and so has `src << 20`. -/
def encodeUniqueEdgeId (labelId src dst : BitVec 32) : BitVec 64 :=
  (labelId.setWidth 64 <<< 32 ||| (src <<< 20).setWidth 64) ||| dst.setWidth 64

/-- The labels of an edge and its vids, within the range of 20 bits that the encoding is for. -/
structure EdgeKey where
  srcLabel : BitVec 8
  dstLabel : BitVec 8
  edgeLabel : BitVec 8
  src : BitVec 20
  dst : BitVec 20
  deriving DecidableEq

/-- The `_ID` of an edge. -/
def EdgeKey.id (e : EdgeKey) : BitVec 64 :=
  encodeUniqueEdgeId (generateEdgeLabelId e.srcLabel e.dstLabel e.edgeLabel) (e.src.setWidth 32)
    (e.dst.setWidth 32)

theorem toNat_shiftLeft_or {w k : ℕ} {x y : BitVec w} (hk : k ≤ w) (hy : y.toNat < 2 ^ k) :
    (x <<< k ||| y).toNat = x.toNat % 2 ^ (w - k) * 2 ^ k + y.toNat := by
  have hw : 2 ^ w = 2 ^ (w - k) * 2 ^ k := by rw [← pow_add, Nat.sub_add_cancel hk]
  rw [BitVec.toNat_or, BitVec.toNat_shiftLeft, Nat.shiftLeft_eq, hw, Nat.mul_mod_mul_right,
    ← Nat.shiftLeft_eq, Nat.shiftLeft_add_eq_or_of_lt hy]

theorem toNat_generateEdgeLabelId (srcLabel dstLabel edgeLabel : BitVec 8) :
    (generateEdgeLabelId srcLabel dstLabel edgeLabel).toNat =
      srcLabel.toNat * 2 ^ 16 + dstLabel.toNat * 2 ^ 8 + edgeLabel.toNat := by
  rw [generateEdgeLabelId, toNat_shiftLeft_or (by decide), toNat_shiftLeft_or (by decide)]
  · simp only [BitVec.toNat_setWidth]
    omega
  · simpa using by omega
  · simpa using by omega

/-- Of the source vid the lower 12 bits are left. -/
theorem EdgeKey.toNat_id (e : EdgeKey) :
    e.id.toNat = (generateEdgeLabelId e.srcLabel e.dstLabel e.edgeLabel).toNat * 2 ^ 32 +
      e.src.toNat % 2 ^ 12 * 2 ^ 20 + e.dst.toNat := by
  have hvids : (e.src.setWidth 32 <<< 20 ||| e.dst.setWidth 32).toNat =
      e.src.toNat % 2 ^ 12 * 2 ^ 20 + e.dst.toNat := by
    rw [toNat_shiftLeft_or (by decide)]
    · simp only [BitVec.toNat_setWidth]
      omega
    · simpa using by omega
  rw [id, encodeUniqueEdgeId, BitVec.or_assoc, ← BitVec.setWidth_or,
    toNat_shiftLeft_or (by decide)]
  · simp only [BitVec.toNat_setWidth]
    omega
  · simp only [BitVec.toNat_setWidth]
    omega

theorem EdgeKey.id_eq_iff (e e' : EdgeKey) : e.id = e'.id ↔
    e = { e' with src := e.src } ∧ e.src.toNat % 2 ^ 12 = e'.src.toNat % 2 ^ 12 := by
  obtain ⟨sl, dl, el, src, dst⟩ := e
  obtain ⟨sl', dl', el', src', dst'⟩ := e'
  simp only [← BitVec.toNat_inj, EdgeKey.toNat_id, toNat_generateEdgeLabelId, EdgeKey.mk.injEq,
    true_and]
  constructor
  · intro h
    have hto : dst.toNat = dst'.toNat := by omega
    have hfrom : src.toNat % 2 ^ 12 = src'.toNat % 2 ^ 12 := by omega
    have hedge : el.toNat = el'.toNat := by omega
    have hnbr : dl.toNat = dl'.toNat := by omega
    exact ⟨⟨by omega, hnbr, hedge, hto⟩, hfrom⟩
  · rintro ⟨⟨hsl, hdl, hel, hto⟩, hfrom⟩
    rw [hsl, hdl, hel, hto, hfrom]

/-- The ids of two edges tell them apart, unless the edges differ in their source vids only and
these agree modulo 4096. -/
theorem edgeId_injective_iff (e e' : EdgeKey) : (e.id = e'.id → e = e') ↔
    ¬ (e = { e' with src := e.src } ∧ e.src ≠ e'.src ∧
      e.src.toNat % 2 ^ 12 = e'.src.toNat % 2 ^ 12) := by
  rw [EdgeKey.id_eq_iff]
  constructor
  · rintro h ⟨hrest, hsrc, hmod⟩
    exact hsrc (congrArg EdgeKey.src (h ⟨hrest, hmod⟩))
  · rintro h ⟨hrest, hmod⟩
    by_contra hne
    refine h ⟨hrest, fun hsrc => hne ?_, hmod⟩
    rw [hrest, hsrc]

/-- The edges of the vertices 0 and 4096 to vertex 1. -/
theorem edgeId_collision :
    let e : EdgeKey := ⟨0, 0, 0, 0, 1⟩
    let e' : EdgeKey := ⟨0, 0, 0, 4096, 1⟩
    e ≠ e' ∧ e.id = e'.id := by
  decide

end Neug.Execution
