import Neug.Storage.EdgeEffect
import Neug.Transaction.SnapshotStability

/-! `InsertTransaction::Commit`: the archive is appended to the log first and then ingested record
by record, while other insert transactions ingest theirs. A record that fails stops the loop, and
nothing takes back the records before it or the log. -/
namespace Neug.Transaction
open Neug.Lib Neug.Storage List Option Call Function PropertyGraph

variable {V : Type}

/-- What `Commit` works on: the transaction, the graph, the log of the writer, which is absent if
its file is not open, and the timestamps given back to the version manager. -/
structure Committer (V : Type) where
  txn : InsertTransaction V
  graph : PropertyGraph V
  log : Option (List (ℕ × List (InsertRedo V)))
  released : List ℕ

abbrev CommitCall (V α : Type) := Call (Committer V) InsertError α

namespace Committer

def onGraph {α : Type} (m : IngestCall V α) : CommitCall V α := fun s =>
  (m s.graph).map fun r => (r.1, { s with graph := r.2 })

/-- `release_insert_timestamp` and `clear`, which are also what `Abort` does. -/
def finish : CommitCall V Unit :=
  Call.modify fun s =>
    { s with txn := .start invalidTimestamp, released := s.released ++ [s.txn.timestamp] }

/-- `append`. A write that fails ends the process and is not part of the model. -/
def append : CommitCall V Bool := do
  let s ← Call.read
  match s.log with
  | none => pure false
  | some records => do
    Call.modify fun s => { s with log := some (records ++ [(s.txn.timestamp, s.txn.archive)]) }
    pure true

end Committer

section

variable [DecidableEq V]

def interfere (others : List (Ingest V)) : IngestCall V Unit := fun g =>
  (others.foldlM ingestStep g).map fun g' => (.ok (), g')

/-- `IngestWal` while other transactions ingest: `others` has the records that come before each
record of the archive. -/
def ingestAmong (ts : ℕ) : List (List (Ingest V)) → List (InsertRedo V) → IngestCall V Unit
  | _, [] => pure ()
  | others, r :: rs => do
    interfere (others.headD [])
    ingestRedo ts r
    ingestAmong ts others.tail rs

/-- The end of `Commit`, for a record that is in the log. -/
def Committer.applyLogged (others : List (List (Ingest V))) : CommitCall V Bool := do
  let s ← Call.read
  Committer.onGraph (ingestAmong s.txn.timestamp others s.txn.archive)
  Committer.finish
  pure true

/-- `Commit` for an archive that is not empty. -/
def Committer.logAndApply (others : List (List (Ingest V))) : CommitCall V Bool := do
  if ← Committer.append then Committer.applyLogged others
  else do
    Committer.finish
    pure false

def Committer.commit (others : List (List (Ingest V))) : CommitCall V Bool := do
  let s ← Call.read
  if s.txn.timestamp = invalidTimestamp then pure true
  else if s.txn.archive.isEmpty then do
    Committer.finish
    pure true
  else Committer.logAndApply others

end

section

def outgoingAt (g : PropertyGraph V) (τ : Triplet) (ts : ℕ) : List (ℕ × ℕ × List (Option V)) :=
  ((g.edgeTables τ).map (·.outgoing ts)).getD []

def incomingAt (g : PropertyGraph V) (τ : Triplet) (ts : ℕ) : List (ℕ × ℕ × List (Option V)) :=
  ((g.edgeTables τ).map (·.incoming ts)).getD []

variable [DecidableEq V]

/-- A reader at `ts` sees exactly the vertex or edge of the record more. -/
def Gains (ts : ℕ) : InsertRedo V → PropertyGraph V → PropertyGraph V → Prop
  | .insertVertex label oid props, g, g' =>
    (∃ lid, (g'.vertices label ts).Perm
      ((lid, some oid, props.map some) :: g.vertices label ts)) ∧
    (∀ label' ≠ label, g'.vertices label' ts = g.vertices label' ts) ∧
    g'.edgeTables = g.edgeTables
  | .insertEdge srcLabel src dstLabel dst edgeLabel props, g, g' =>
    ∃ srcLid dstLid, g.getLid srcLabel src ts = some (some srcLid) ∧
      g.getLid dstLabel dst ts = some (some dstLid) ∧
      (outgoingAt g' (srcLabel, dstLabel, edgeLabel) ts).Perm
        ((srcLid, dstLid, props.map some) :: outgoingAt g (srcLabel, dstLabel, edgeLabel) ts) ∧
      (incomingAt g' (srcLabel, dstLabel, edgeLabel) ts).Perm
        ((srcLid, dstLid, props.map some) :: incomingAt g (srcLabel, dstLabel, edgeLabel) ts) ∧
      (∀ τ ≠ (srcLabel, dstLabel, edgeLabel),
        outgoingAt g' τ ts = outgoingAt g τ ts ∧ incomingAt g' τ ts = incomingAt g τ ts) ∧
      g'.vertexTables = g.vertexTables

def Accepts (ts : ℕ) : InsertRedo V → PropertyGraph V → Prop
  | .insertVertex label oid props, g =>
    ∃ t, g.vertexTables[label]? = some t ∧ t.Accepts oid props ts
  | .insertEdge srcLabel src dstLabel dst edgeLabel props, g =>
    ∃ srcLid dstLid t, g.getLid srcLabel src ts = some (some srcLid) ∧
      g.getLid dstLabel dst ts = some (some dstLid) ∧
      g.edgeTables (srcLabel, dstLabel, edgeLabel) = some t ∧ t.Accepts srcLid dstLid props ts

def Applied (ts : ℕ) : List (List (Ingest V)) → List (InsertRedo V) → PropertyGraph V →
    PropertyGraph V → Prop
  | _, [], g, g' => g' = g
  | others, r :: rs, g, g' => ∃ g₁ g₂, interfere (others.headD []) g = some (.ok (), g₁) ∧
    ingestRedo ts r g₁ = some (.ok (), g₂) ∧ Gains ts r g₁ g₂ ∧
    Applied ts others.tail rs g₂ g'

/-- Every record finds what it needs in the graph that the records before it have left. -/
def Accepted (ts : ℕ) : List (List (Ingest V)) → List (InsertRedo V) → PropertyGraph V → Prop
  | _, [], _ => True
  | others, r :: rs, g => ∃ g₁, interfere (others.headD []) g = some (.ok (), g₁) ∧
    Accepts ts r g₁ ∧
    ∀ g₂, ingestRedo ts r g₁ = some (.ok (), g₂) → Accepted ts others.tail rs g₂

/-- `Commit` ends, and has either logged and applied every record or changed neither the log nor
the graph. -/
def AllOrNothing (others : List (List (Ingest V))) (s : Committer V) : Prop :=
  ∃ res s', Committer.commit others s = some (res, s') ∧
    ((∃ records, res = .ok true ∧ s.log = some records ∧
        s'.log = some (records ++ [(s.txn.timestamp, s.txn.archive)]) ∧
        Applied s.txn.timestamp others s.txn.archive s.graph s'.graph) ∨
      s'.log = s.log ∧ s'.graph = s.graph)

end

section

variable [DecidableEq V] {ts label : ℕ} {g g' : PropertyGraph V} {oid : V} {props : List V}

theorem ingestVertex_apply {t t' : VertexTable V} {lid : ℕ} (ht : g.vertexTables[label]? = some t)
    (hadd : VertexTable.addVertex oid props ts t = some (.ok (some lid), t')) :
    ingestRedo ts (.insertVertex label oid props) g =
      some (.ok (), { g with vertexTables := g.vertexTables.set label t' }) := by
  have hgraph : addVertex label oid props ts g =
      some (.ok (some lid), { g with vertexTables := g.vertexTables.set label t' }) := by
    rw [addVertex, onVertex, ht, bind_some, hadd]
    rfl
  rw [ingestRedo, Call.bind_apply, liftGraph, hgraph]
  rfl

theorem requireVertex_apply {lid : ℕ} (h : g.getLid label oid ts = some (some lid)) :
    requireVertex label oid ts g = some (.ok lid, g) := by
  rw [requireVertex, read_bind, defined_bind_eq_some]
  exact ⟨some lid, h, rfl⟩

theorem ingestEdge_apply {srcLabel dstLabel edgeLabel srcLid dstLid : ℕ} {src dst : V}
    {t t' : EdgeTable V} (hsrc : g.getLid srcLabel src ts = some (some srcLid))
    (hdst : g.getLid dstLabel dst ts = some (some dstLid))
    (ht : g.edgeTables (srcLabel, dstLabel, edgeLabel) = some t)
    (hadd : EdgeTable.addEdge srcLid dstLid props ts t = some (.ok (), t')) :
    ingestRedo ts (.insertEdge srcLabel src dstLabel dst edgeLabel props) g = some (.ok (), { g with
        edgeTables := update g.edgeTables (srcLabel, dstLabel, edgeLabel) (some t') }) := by
  have hlabel : g.hasEdgeLabel (srcLabel, dstLabel, edgeLabel) = true := by
    rw [hasEdgeLabel, ht]
    rfl
  have hgraph : addEdge (srcLabel, dstLabel, edgeLabel) srcLid dstLid props ts g =
      some (.ok (), { g with
        edgeTables := update g.edgeTables (srcLabel, dstLabel, edgeLabel) (some t') }) := by
    rw [addEdge, read_bind, if_pos hlabel, onEdge, ht, bind_some, hadd]
    rfl
  rw [ingestRedo, Call.bind_apply, requireVertex_apply hsrc]
  dsimp only
  rw [Call.bind_apply, requireVertex_apply hdst]
  dsimp only
  rw [liftGraph, hgraph]
  rfl

omit [DecidableEq V] in
theorem vertices_set {t : VertexTable V} {label' : ℕ} (hlt : label < g.vertexTables.length) :
    vertices { g with vertexTables := g.vertexTables.set label t } label' ts =
      if label' = label then t.vertices ts else g.vertices label' ts := by
  unfold vertices
  split_ifs with hl
  · rw [hl, getElem?_set_self hlt]
    rfl
  · rw [getElem?_set_ne (Ne.symm hl)]

theorem vertex_gains_iff (hts : ts ≠ 0) (hmax : ts < deletedTimestamp) :
    (∃ g', ingestRedo ts (.insertVertex label oid props) g = some (.ok (), g') ∧
        Gains ts (.insertVertex label oid props) g g') ↔
      Accepts ts (.insertVertex label oid props) g := by
  constructor
  · rintro ⟨g', hrun, hgains, -, -⟩
    obtain ⟨t, q, t', ht, hadd, rfl, hok⟩ := ingestVertex_run hrun
    obtain ⟨lid, rfl⟩ := hok.mp rfl
    have hlt := (List.getElem?_eq_some_iff.mp ht).1
    refine ⟨t, ht, (VertexTable.addVertex_gains_iff hts hmax).mp ⟨lid, t', hadd, ?_⟩⟩
    rw [vertices_set hlt, if_pos rfl] at hgains
    rw [vertices, ht] at hgains
    exact hgains
  · rintro ⟨t, ht, haccepts⟩
    obtain ⟨lid, t', hadd, hgains⟩ := (VertexTable.addVertex_gains_iff hts hmax).mpr haccepts
    have hlt := (List.getElem?_eq_some_iff.mp ht).1
    refine ⟨_, ingestVertex_apply ht hadd, ?_, fun label' hl => ?_, rfl⟩
    · rw [vertices_set hlt, if_pos rfl, vertices, ht]
      exact hgains
    · rw [vertices_set hlt, if_neg hl]

theorem edge_gains_iff {srcLabel dstLabel edgeLabel : ℕ} {src dst : V} :
    (∃ g', ingestRedo ts (.insertEdge srcLabel src dstLabel dst edgeLabel props) g =
          some (.ok (), g') ∧
        Gains ts (.insertEdge srcLabel src dstLabel dst edgeLabel props) g g') ↔
      Accepts ts (.insertEdge srcLabel src dstLabel dst edgeLabel props) g := by
  constructor
  · rintro ⟨g', hrun, srcLid, dstLid, hsrc, hdst, hout, hin, -, -⟩
    obtain ⟨srcLid', dstLid', hsrc', hdst', ⟨-, -, hres⟩ | ⟨t, q, t', ht, hadd, rfl, hok⟩⟩ :=
      ingestEdge_run hrun
    · exact absurd rfl hres
    · obtain rfl : srcLid = srcLid' := some.inj (some.inj (hsrc.symm.trans hsrc'))
      obtain rfl : dstLid = dstLid' := some.inj (some.inj (hdst.symm.trans hdst'))
      obtain rfl := hok.mp rfl
      refine ⟨srcLid, dstLid, t, hsrc, hdst, ht, EdgeTable.addEdge_gains_iff.mp ⟨t', hadd, ?_, ?_⟩⟩
      · simpa only [outgoingAt, update_self, ht, map_some, getD_some] using hout
      · simpa only [incomingAt, update_self, ht, map_some, getD_some] using hin
  · rintro ⟨srcLid, dstLid, t, hsrc, hdst, ht, haccepts⟩
    obtain ⟨t', hadd, hout, hin⟩ := EdgeTable.addEdge_gains_iff.mpr haccepts
    refine ⟨_, ingestEdge_apply hsrc hdst ht hadd, srcLid, dstLid, hsrc, hdst, ?_, ?_,
      fun τ hτ => ?_, rfl⟩
    · simpa only [outgoingAt, update_self, ht, map_some, getD_some] using hout
    · simpa only [incomingAt, update_self, ht, map_some, getD_some] using hin
    · simp only [outgoingAt, incomingAt, update_of_ne hτ, and_self]

/-- A record is ingested and adds exactly its vertex or edge where the graph accepts it. -/
theorem ingestRedo_gains_iff (hts : ts ≠ 0) (hmax : ts < deletedTimestamp) (r : InsertRedo V)
    (g : PropertyGraph V) :
    (∃ g', ingestRedo ts r g = some (.ok (), g') ∧ Gains ts r g g') ↔ Accepts ts r g := by
  cases r with
  | insertVertex label oid props => exact vertex_gains_iff hts hmax
  | insertEdge srcLabel src dstLabel dst edgeLabel props => exact edge_gains_iff

theorem applied_iff (hts : ts ≠ 0) (hmax : ts < deletedTimestamp)
    (others : List (List (Ingest V))) (rs : List (InsertRedo V)) (g : PropertyGraph V) :
    (∃ g', ingestAmong ts others rs g = some (.ok (), g') ∧ Applied ts others rs g g') ↔
      Accepted ts others rs g := by
  induction rs generalizing others g with
  | nil => exact iff_of_true ⟨g, rfl, rfl⟩ trivial
  | cons r rs ih =>
    constructor
    · rintro ⟨g', hrun, g₁, g₂, hothers, hingest, hgains, happlied⟩
      refine ⟨g₁, hothers, (ingestRedo_gains_iff hts hmax r g₁).mp ⟨g₂, hingest, hgains⟩,
        fun g₂' hingest' => ?_⟩
      obtain rfl : g₂ = g₂' := (Prod.mk.inj (some.inj (hingest.symm.trans hingest'))).2
      rw [ingestAmong, Call.bind_apply, hothers] at hrun
      dsimp only at hrun
      rw [Call.bind_apply, hingest] at hrun
      exact (ih _ g₂).mp ⟨g', hrun, happlied⟩
    · rintro ⟨g₁, hothers, haccepts, hrest⟩
      obtain ⟨g₂, hingest, hgains⟩ := (ingestRedo_gains_iff hts hmax r g₁).mpr haccepts
      obtain ⟨g', hrun, happlied⟩ := (ih _ g₂).mpr (hrest g₂ hingest)
      refine ⟨g', ?_, g₁, g₂, hothers, hingest, hgains, happlied⟩
      rw [ingestAmong, Call.bind_apply, hothers]
      dsimp only
      rw [Call.bind_apply, hingest]
      exact hrun

end

section

variable [DecidableEq V] {others : List (List (Ingest V))} {s s' : Committer V}
  {records : List (ℕ × List (InsertRedo V))} {res : Except InsertError Bool}

def Idle (s : Committer V) : Prop :=
  s.txn.timestamp = invalidTimestamp ∨ s.txn.archive = [] ∨ s.log = none

def Committer.logged (s : Committer V) (records : List (ℕ × List (InsertRedo V))) : Committer V :=
  { s with log := some (records ++ [(s.txn.timestamp, s.txn.archive)]) }

theorem commit_of_idle (others : List (List (Ingest V))) (h : Idle s) :
    ∃ res s', Committer.commit others s = some (res, s') ∧ s'.log = s.log ∧ s'.graph = s.graph := by
  rw [Committer.commit, read_bind]
  split_ifs with hts harchive
  · exact ⟨_, s, rfl, rfl, rfl⟩
  · exact ⟨_, _, rfl, rfl, rfl⟩
  · have hlog : s.log = none := by
      rcases h with h | h | h
      · exact absurd h hts
      · exact absurd (isEmpty_iff.mpr h) harchive
      · exact h
    rw [Committer.logAndApply, Call.bind_apply, Committer.append, read_bind, hlog]
    exact ⟨_, _, rfl, hlog.symm ▸ hlog, rfl⟩

theorem commit_of_not_idle (others : List (List (Ingest V))) (h : ¬ Idle s) :
    ∃ records, s.log = some records ∧
      Committer.commit others s = Committer.applyLogged others (s.logged records) := by
  obtain ⟨hts, h⟩ := not_or.mp h
  obtain ⟨harchive, hlog⟩ := not_or.mp h
  obtain ⟨records, hrecords⟩ := ne_none_iff_exists'.mp hlog
  refine ⟨records, hrecords, ?_⟩
  rw [Committer.commit, read_bind, if_neg hts,
    if_neg fun hempty => harchive (isEmpty_iff.mp hempty), Committer.logAndApply,
    Call.bind_apply, Committer.append, read_bind, hrecords]
  rfl

theorem applyLogged_run (h : Committer.applyLogged others s = some (res, s')) :
    s'.log = s.log ∧ (res = .ok true →
      ingestAmong s.txn.timestamp others s.txn.archive s.graph = some (.ok (), s'.graph)) := by
  rw [Committer.applyLogged, read_bind] at h
  rcases bind_cases h with ⟨_, s₁, hrun, hrest⟩ | ⟨e, hrun, rfl⟩
  · obtain ⟨⟨q, g'⟩, hq, heq⟩ := map_eq_some_iff.mp hrun
    cases heq
    cases hrest
    exact ⟨rfl, fun _ => hq⟩
  · obtain ⟨⟨q, g'⟩, -, heq⟩ := map_eq_some_iff.mp hrun
    cases heq
    exact ⟨rfl, fun hres => by cases hres⟩

end

def emptyLabel : PropertyGraph ℕ where
  schema := ⟨["v"], ∅, [⟨some (.uint64, "id"), []⟩], [], ∅, ∅⟩
  vertexTables := [⟨[], 4, some (.openInMemory [] []),
    ⟨0, 4, List.replicate 4 deletedTimestamp, none, rfl⟩⟩]
  edgeTables := fun _ => none

def buffered (archive : List (InsertRedo ℕ)) : Committer ℕ :=
  ⟨⟨5, fun _ => none, archive⟩, emptyLabel, some [], []⟩

end Neug.Transaction
