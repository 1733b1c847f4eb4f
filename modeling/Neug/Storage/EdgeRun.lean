import Neug.Storage.EdgeMirror

/-! Runs of calls on an edge table, and what its two views show after them. -/
namespace Neug.Storage
open Neug.Lib List

variable {V : Type}

namespace EdgeTable

/-- The property values of an entry: read through the accessors of all columns. No value
stands for data that the schema does not fit. -/
def readData (t : EdgeTable V) (d : EdgeData V) : List (Option V) :=
  if isBundled t.properties then
    match d with
    | .value v => t.properties.map fun _ => some v
    | _ => t.properties.map fun _ => none
  else
    match d with
    | .row i => (List.range t.properties.length).map fun c =>
      (t.table.columns[c]?).bind fun col => col.cells[i]?
    | _ => t.properties.map fun _ => none

/-- The edges that the outgoing view shows at a timestamp: source, destination, properties. -/
def outgoing (t : EdgeTable V) (ts : ℕ) : List (ℕ × ℕ × List (Option V)) :=
  (t.outCsr.view ts).map fun e => (e.1, e.2.1, t.readData e.2.2)

def incoming (t : EdgeTable V) (ts : ℕ) : List (ℕ × ℕ × List (Option V)) :=
  (t.inCsr.view ts).map fun e => (e.2.1, e.1, t.readData e.2.2)

instance [DecidableEq V] : DecidableEq (List (ℕ × ℕ × List (Option V))) := inferInstance

theorem Mirror.views_perm {t : EdgeTable V} (h : t.Mirror) {ts : ℕ} (hts : ts < invalidTimestamp) :
    (t.outgoing ts).Perm (t.incoming ts) := by
  have hview := (MutableCsr.Mirrored.view_perm h hts).map fun e => (e.1, e.2.1, t.readData e.2.2)
  rw [map_map] at hview
  exact hview

def Opposite (t : EdgeTable V) (p q : ℕ × ℕ) : Prop :=
  match (t.outCsr.list p.1)[p.2]? with
  | some n => n.neighbor = q.1 ∧ (t.inCsr.list q.1)[q.2]? = some (n.image p.1)
  | none => False

/-- The outgoing half of `RevertDeleteEdge` finds a tombstone. -/
def revertible (t : EdgeTable V) (src dst oeOffset : ℕ) : Bool :=
  ((t.outCsr.list src)[oeOffset]?).any fun n =>
    n.neighbor == dst && n.timestamp == invalidTimestamp

/-- The incoming iterator of `UpdateEdgeProperty` arrives at the other end of an entry. -/
def MeetsImage (t : EdgeTable V) (src dst ieOffset ts : ℕ) (n : Nbr (EdgeData V)) : Prop :=
  match t.inCsr.advance dst ts ieOffset with
  | some (some (_, m)) => m = n.image src
  | some none => False
  | none => True

/-- An update writes both ends of one edge, or in a table with rows leaves the timestamp. -/
def UpdatesEnds (t : EdgeTable V) (src dst oeOffset ieOffset ts : ℕ) : Prop :=
  match t.outCsr.advance src ts oeOffset with
  | some (some (_, n)) =>
    if isBundled t.properties then n.neighbor = dst ∧ t.MeetsImage src dst ieOffset ts n
    else n.timestamp = ts
  | _ => True

/-- New properties that the layout change can take: new names, defaults of the declared types,
and no second property for edges that have none, unless the first is a string. -/
def Addable [PropertyValue V] (t : EdgeTable V) (new : List (PropertyDef V)) : Prop :=
  ((t.properties ++ new).map PropertyDef.name).Nodup ∧
  (∀ p ∈ t.properties ++ new, PropertyValue.type p.default = p.type) ∧
  (t.properties = [] → 2 ≤ new.length → new.head?.map PropertyDef.type = some .varchar)

def Coherent [PropertyValue V] (t : EdgeTable V) : EdgeOp V → Prop
  | .addEdge src dst _ _ => dst < t.inCsr.size → src < t.outCsr.size
  | .batchAddEdges rows => ∀ q ∈ rows, q.1 < t.outCsr.size ↔ q.2.1 < t.inCsr.size
  | .batchAddRecords srcNum dstNum _ =>
    (∀ l ∈ t.outCsr.adj.drop srcNum, ∀ n ∈ l, n.alive = false) ∧
      ∀ l ∈ t.inCsr.adj.drop dstNum, ∀ n ∈ l, n.alive = false
  | .deleteEdge src dst oe ie _ =>
    (t.outCsr.list src)[oe]? = none ∨ t.Opposite (src, oe) (dst, ie)
  | .batchDeleteOffsets oe ie => oe.length = ie.length ∧
    (∀ p ∈ oe.zip ie, t.Opposite p.1 p.2) ∧
    ∀ p ∈ oe.zip ie, ∀ q ∈ oe.zip ie, p.1 = q.1 ↔ p.2 = q.2
  | .deleteVertex _ isSrc vid ts => ts < invalidTimestamp ∧
    Separable (if isSrc then t.outCsr.list vid else t.inCsr.list vid) ts
  | .revertDeleteEdge src dst oe ie _ =>
    t.revertible src dst oe = false ∨ t.Opposite (src, oe) (dst, ie)
  | .updateEdgeProperty src dst oe ie _ _ ts => t.UpdatesEnds src dst oe ie ts
  | .addProperties new => t.Addable new
  | .ensureCapacity _ _ _ | .batchDeletePairs _ | .batchDeleteVertices _ _
  | .deleteProperties _ | .compact _ _ _ => True

section

variable [DecidableEq V]

instance (t : EdgeTable V) (p q : ℕ × ℕ) : Decidable (t.Opposite p q) := by
  unfold Opposite
  split <;> infer_instance

instance (t : EdgeTable V) (src dst ieOffset ts : ℕ) (n : Nbr (EdgeData V)) :
    Decidable (t.MeetsImage src dst ieOffset ts n) := by
  unfold MeetsImage
  split <;> infer_instance

instance (t : EdgeTable V) (src dst oeOffset ieOffset ts : ℕ) :
    Decidable (t.UpdatesEnds src dst oeOffset ieOffset ts) := by
  unfold UpdatesEnds
  split <;> infer_instance

instance [PropertyValue V] (t : EdgeTable V) (new : List (PropertyDef V)) :
    Decidable (t.Addable new) := by
  unfold Addable
  infer_instance

instance [PropertyValue V] (t : EdgeTable V) (op : EdgeOp V) : Decidable (t.Coherent op) := by
  cases op <;> unfold Coherent <;> infer_instance

end

def Initial (t : EdgeTable V) : Prop := ∃ properties, t = create properties

variable {t t' : EdgeTable V} {r : Except EdgeError Unit}

theorem endsAt_of_opposite {src dst oe ie : ℕ} (h : t.Opposite (src, oe) (dst, ie))
    {n : Nbr (EdgeData V)} (hn : (t.outCsr.list src)[oe]? = some n) : t.EndsAt src dst oe ie n := by
  simp only [Opposite, hn] at h
  exact ⟨hn, h.1, h.2⟩

theorem alive_of_drop {c : MutableCsr (EdgeData V)} {k : ℕ}
    (h : ∀ l ∈ c.adj.drop k, ∀ n ∈ l, n.alive = false) :
    ∀ v ≥ k, ∀ n ∈ c.list v, n.alive = false := by
  intro v hv n hn
  unfold MutableCsr.list at hn
  rw [getD_eq_getElem?_getD] at hn
  cases hget : c.adj[v]? with
  | none => simp [hget] at hn
  | some l =>
    rw [hget] at hn
    refine h l (mem_of_getElem? (i := v - k) ?_) n hn
    rw [getElem?_drop, Nat.add_sub_cancel' hv]
    exact hget

theorem mirror_updateEdgeProperty {src dst oe ie col ts : ℕ} {prop : V} (h : t.Mirror)
    (hends : t.UpdatesEnds src dst oe ie ts)
    (hrun : updateEdgeProperty src dst oe ie col prop ts t = some (r, t')) : t'.Mirror := by
  rw [updateEdgeProperty, Call.read_bind] at hrun
  split_ifs at hrun with hb
  · refine mirror_updateBundled h (fun i n hn => ?_) hrun
    simp only [UpdatesEnds, hn, hb] at hends
    refine ⟨hends.1, ?_⟩
    have hmeet := hends.2
    unfold MeetsImage at hmeet
    split at hmeet
    · next j m hm => exact .inr ⟨j, by rw [hm, hmeet]⟩
    · exact hmeet.elim
    · next hnone => exact .inl hnone
  · refine mirror_updateUnbundled h (fun i n hn => ?_) hrun
    simpa [UpdatesEnds, hn, hb] using hends

variable [PropertyValue V]

/-- One step: a coherent call keeps the mirror, whether it returns or throws. -/
theorem Mirror.step {op : EdgeOp V} (h : t.Mirror) (hok : t.Coherent op)
    (hstep : t.step op = some t') : t'.Mirror := by
  obtain ⟨r, hrun⟩ := Call.after_eq_some hstep
  cases op with
  | ensureCapacity srcCap dstCap capacity => exact (mirror_ensureCapacity _ _ _).run hrun h
  | addEdge src dst edgeData ts => exact mirror_addEdge h hok hrun
  | batchAddEdges rows => exact mirror_batchAddEdges hok h hrun
  | batchAddRecords srcNum dstNum rows =>
    exact mirror_batchAddRecords (alive_of_drop hok.1) (alive_of_drop hok.2) h hrun
  | deleteEdge src dst oe ie ts =>
    refine mirror_deleteEdge h (fun n hn => ?_) hrun
    rcases hok with hnone | hopp
    · rw [hnone] at hn
      cases hn
    · exact endsAt_of_opposite hopp hn
  | batchDeletePairs pairs =>
    obtain ⟨-, rfl⟩ := Prod.mk.inj (Option.some.inj hrun)
    exact MutableCsr.Mirrored.batchDeletePairs h pairs
  | batchDeleteOffsets oe ie =>
    obtain ⟨-, rfl⟩ := Prod.mk.inj (Option.some.inj hrun)
    obtain ⟨hlen, hopp, hsame⟩ := hok
    have hpaired : MutableCsr.Paired t.outCsr t.inCsr (oe.zip ie) := by
      refine ⟨fun p hp => ?_, hsame⟩
      have hp' := hopp p hp
      unfold Opposite at hp'
      split at hp'
      · next n hn => exact ⟨n, hn, hp'.1, hp'.2⟩
      · exact hp'.elim
    have hdel := MutableCsr.Mirrored.batchDeleteOffsets h hpaired
    rw [map_fst_zip hlen.le, map_snd_zip hlen.ge] at hdel
    exact hdel
  | deleteVertex past isSrc vid ts => exact mirror_deleteVertex h hok.1 hok.2 hrun
  | batchDeleteVertices srcSet dstSet =>
    obtain ⟨-, rfl⟩ := Prod.mk.inj (Option.some.inj hrun)
    exact MutableCsr.Mirrored.batchDeleteVertices h srcSet dstSet
  | revertDeleteEdge src dst oe ie ts =>
    refine mirror_revertDeleteEdge h (fun n hn hnbr hts => ?_) hrun
    rcases hok with hno | hopp
    · simp [revertible, hn, hnbr, hts] at hno
    · exact endsAt_of_opposite hopp hn
  | updateEdgeProperty src dst oe ie col prop ts => exact mirror_updateEdgeProperty h hok hrun
  | addProperties new =>
    exact ((keeps_addSchemaProperties MutableCsr.Mirrored new).bind
      fun _ => mirror_addProperties new).run hrun h
  | deleteProperties names =>
    have hschema : Call.Keeps Mirror (deleteSchemaProperties names : EdgeCall V Unit) :=
      keeps_modify MutableCsr.Mirrored fun _ h => h
    exact ((mirror_deleteProperties names).bind fun _ => hschema).run hrun h
  | compact compactCsr sort ts => exact (mirror_compact _ _ _).run hrun h

/-- Whole runs: after any sequence of coherent calls both CSRs hold the same live edges. -/
theorem mirror_of_reach (h : Reach Initial step Coherent t) : t.Mirror := by
  refine h.invariant (fun _ _ => trivial) ?_
    fun s op s' _ hs hok hstep => hs.step hok hstep
  rintro s ⟨properties, rfl⟩
  exact fun v w => rfl

/-- After any sequence of coherent calls the views of both directions show the same edges with
the same properties to every reader. -/
theorem outgoing_perm_incoming (h : Reach Initial step Coherent t) {ts : ℕ}
    (hts : ts < invalidTimestamp) : (t.outgoing ts).Perm (t.incoming ts) :=
  (mirror_of_reach h).views_perm hts

/-- Parallel edges that are added, updated, deleted and restored, moved to a table with rows and
back, deleted with their vertex and compacted. -/
def mixedEdgeCalls : List (EdgeOp ℕ) :=
  [.ensureCapacity 3 3 0, .addEdge 0 1 [5] 1, .addEdge 0 1 [6] 2, .addEdge 2 1 [7] 2,
    .updateEdgeProperty 0 1 0 0 0 8 3, .deleteEdge 0 1 1 1 4, .revertDeleteEdge 0 1 1 1 4,
    .addProperties [⟨"x", .uint64, 9, false⟩], .deleteProperties ["w"],
    .deleteVertex ⟨fun _ => 0, fun _ => 0⟩ true 0 5, .compact true true 6]

theorem outgoing_perm_incoming_mixedCalls : ∃ s : EdgeTable ℕ, Reach Initial step Coherent s ∧
    s.outgoing 6 = [(2, 1, [some 9])] ∧ 6 < invalidTimestamp ∧
      (s.outgoing 6).Perm (s.incoming 6) := by
  have hstart : Reach Initial step Coherent (create [⟨"w", .uint64, 0, false⟩]) :=
    .init ⟨_, rfl⟩
  obtain ⟨s, hs, hview⟩ := hstart.exists_of_execute mixedEdgeCalls
    (fun s => s.outgoing 6 = [(2, 1, [some 9])]) (by decide +kernel)
  exact ⟨s, hs, hview, by decide, outgoing_perm_incoming hs (by decide)⟩

/-- In a table with rows an update stamps the outgoing entry only: a reader between the
insertion and the update sees the edge in one direction. -/
theorem update_stamps_one_end : ∃ s : EdgeTable ℕ, Reach Initial step anyStep s ∧
    s.outgoing 1 = [] ∧ s.incoming 1 = [(0, 0, [some 5, some 7])] := by
  have hstart : Reach Initial step anyStep
      (create [⟨"w", .uint64, 0, false⟩, ⟨"x", .uint64, 0, false⟩]) := .init ⟨_, rfl⟩
  exact hstart.exists_of_execute
    [.ensureCapacity 1 1 1, .addEdge 0 0 [5, 6] 1, .updateEdgeProperty 0 0 0 0 1 7 2] _
    (by decide +kernel)

end EdgeTable

end Neug.Storage
