import Neug.Extension.LouvainCoarsening
import Neug.Lib.OuterRows
import Neug.Lib.Renumber

/-! `AccumulateByComm` under OpenMP: the threads of the team fill buffers of their own, in any
interleaving, and the merge reads the buffers of `omp_get_max_threads()` threads. Every access is
checked; `none` is one to an entry that is not there. -/
namespace Neug.Louvain

open Neug.Lib List Option

/-- The team of a region with a loop over `n` nodes. The runtime grants some of the threads that
`omp_get_max_threads()` counts and gives each iteration to one of them. -/
structure Team (n : ℕ) where
  maxThreads : ℕ
  size : ℕ
  pos : 0 < size
  le_max : size ≤ maxThreads
  owner : ℕ → ℕ
  owner_lt : ∀ u < n, owner u < size

/-- What a thread does to its buffer: `local[tid].assign(n, 0.0)` or an iteration. -/
inductive Access
  | assign
  | add (u : ℕ)

section

variable {R : Type} [Zero R] [Add R] {n : ℕ} {T : Team n}

def Access.run (n : ℕ) (comm : List ℕ) (nodeWeight : List R) :
    Access → Option (List R) → Option (List R)
  | .assign, _ => some (replicate n 0)
  | .add u, buf => do
    let buf ← buf
    let c ← comm[u]?
    let w ← nodeWeight[u]?
    let b ← buf[c]?
    return buf.set c (b + w)

def Team.program (T : Team n) (t : ℕ) : List Access :=
  if t < T.size then .assign :: ((range n).filter (T.owner · = t)).map .add else []

/-- An interleaving of the programs of the team. -/
structure Team.Run (T : Team n) where
  accesses : List (ℕ × Access)
  program_eq : ∀ t, accesses.filter (·.1 = t) = (T.program t).map (t, ·)

/-- The threads one after another. -/
def Team.sequential (T : Team n) : T.Run where
  accesses := (range T.size).flatMap fun t => (T.program t).map (t, ·)
  program_eq t := by
    refine (fiber_flatMap_range (fun t a ha => ?_) T.size t).trans ?_
    · obtain ⟨x, -, rfl⟩ := mem_map.mp ha
      rfl
    · split_ifs with ht
      · rfl
      · rw [program, if_neg ht, map_nil]

def Team.Run.buffers (r : T.Run) (comm : List ℕ) (nodeWeight : List R) :
    List (Option (List R)) :=
  r.accesses.foldl (fun bufs a => bufs.modify a.1 (a.2.run n comm nodeWeight))
    (replicate T.maxThreads (some []))

/-- One iteration of the merge, over the buffers of all `nth` threads. -/
def merge (nth : ℕ) (bufs : List (List R)) (i : ℕ) : Option R :=
  ((range nth).mapM fun t => bufs[t]?.bind (·[i]?)).map (foldl (· + ·) 0)

def Team.Run.accumulateByComm (r : T.Run) (comm : List ℕ) (nodeWeight : List R) :
    Option (List R) := do
  let bufs ← (r.buffers comm nodeWeight).mapM id
  (range n).mapM (merge T.maxThreads bufs)

end

/-- Weighted nodes and their communities. -/
structure Assignment (n : ℕ) where
  comm : List ℕ
  nodeWeight : List ℚ
  comm_length : comm.length = n
  nodeWeight_length : nodeWeight.length = n
  inRange : ∀ c ∈ comm, c < n

variable {n : ℕ} {T : Team n} (s : Assignment n)

namespace Assignment

/-- The sum of the weights of the members of `c`. -/
def total (c : ℕ) : ℚ :=
  ∑ u ∈ Finset.range n with s.comm.getD u 0 = c, s.nodeWeight.getD u 0

/-- What node `u` adds to community `c`. -/
def share (u c : ℕ) : ℚ :=
  if s.comm.getD u 0 = c then s.nodeWeight.getD u 0 else 0

/-- The buffer of thread `t` after the region. -/
def buffer (T : Team n) (t : ℕ) : List ℚ :=
  if t < T.size then
    (range n).map fun c => (((range n).filter (T.owner · = t)).map (s.share · c)).sum
  else []

theorem run_add {u : ℕ} (hu : u < n) (f : ℕ → ℚ) :
    (Access.add u).run n s.comm s.nodeWeight (some ((range n).map f)) =
      some ((range n).map fun c => f c + s.share u c) := by
  have hc : u < s.comm.length := by rwa [s.comm_length]
  have hw : u < s.nodeWeight.length := by rwa [s.nodeWeight_length]
  have hlt : s.comm[u] < n := s.inRange _ (getElem_mem hc)
  simp only [Access.run, getElem?_eq_getElem hc, getElem?_eq_getElem hw, bind_eq_bind, bind_some,
    getElem?_map, getElem?_range hlt, map_some]
  refine congrArg some (ext_getElem (by simp) fun c _ _ => ?_)
  by_cases h : s.comm[u] = c <;> simp [share, hc, hw, h]

theorem foldl_add {us : List ℕ} (hus : ∀ u ∈ us, u < n) (f : ℕ → ℚ) :
    (us.map Access.add).foldl (fun b a => a.run n s.comm s.nodeWeight b)
      (some ((range n).map f)) =
      some ((range n).map fun c => f c + (us.map (s.share · c)).sum) := by
  induction us generalizing f with
  | nil => simp
  | cons u us ih =>
    rw [map_cons, foldl_cons, s.run_add (hus u mem_cons_self),
      ih fun v hv => hus v (mem_cons_of_mem _ hv)]
    simp [add_assoc]

/-- However the threads are interleaved, each buffer holds what its own iterations add. -/
theorem buffers_eq (r : T.Run) : r.buffers s.comm s.nodeWeight =
    (range T.maxThreads).map fun t => some (s.buffer T t) := by
  have hown : ∀ t, (T.program t).foldl (fun b a => a.run n s.comm s.nodeWeight b)
      (some []) = some (s.buffer T t) := by
    intro t
    rw [Team.program, buffer]
    split_ifs
    · have hzero : replicate n (0 : ℚ) = (range n).map fun _ => 0 := by simp
      rw [foldl_cons, Access.run, hzero, s.foldl_add (by simp +contextual)]
      simp
    · rfl
  refine ext_getElem? fun t => ?_
  rw [Team.Run.buffers, getElem?_foldl_modify (Access.run n s.comm s.nodeWeight), r.program_eq]
  by_cases ht : t < T.maxThreads <;> simp [ht, foldl_map, hown]

theorem merge_eq_none (hsize : T.size < T.maxThreads) (c : ℕ) :
    merge T.maxThreads ((range T.maxThreads).map (s.buffer T)) c = none := by
  rw [merge, mapM_eq_none (mem_range.mpr hsize), map_none]
  simp [hsize, buffer]

theorem merge_eq_total (hsize : T.size = T.maxThreads) {c : ℕ} (hc : c < n) :
    merge T.maxThreads ((range T.maxThreads).map (s.buffer T)) c = some (s.total c) := by
  have hread : ∀ t ∈ range T.maxThreads,
      ((range T.maxThreads).map (s.buffer T))[t]?.bind (·[c]?) =
        some (∑ u ∈ Finset.range n with T.owner u = t, s.share u c) := by
    intro t ht
    have hlt := mem_range.mp ht
    simp only [getElem?_map, getElem?_range hlt, map_some, bind_some, buffer, hsize, hlt, if_true,
      getElem?_range hc]
    rfl
  have howner : ∀ u ∈ Finset.range n, T.owner u ∈ Finset.range T.maxThreads := fun u hu =>
    Finset.mem_range.mpr (hsize ▸ T.owner_lt u (Finset.mem_range.mp hu))
  rw [merge, mapM_eq_some_map hread, map_some, ← sum_eq_foldl, total, Finset.sum_filter]
  exact congrArg some (Finset.sum_fiberwise_of_maps_to howner _)

theorem accumulateByComm_eq :
    accumulateByComm n s.comm s.nodeWeight = (range n).map s.total := by
  refine ext_getElem (by simp [length_accumulateByComm]) fun c hc hc' => ?_
  have hsum := accumulateByComm_getD (by simpa using hc')
    (s.comm_length.trans s.nodeWeight_length.symm)
  rw [s.comm_length, getD_eq_getElem _ _ hc] at hsum
  simpa [total] using hsum

end Assignment

namespace Team

/-- Every access finds its entry, and the result is that of the serial loop: for each community the
sum of the weights of its members. -/
def Run.Accumulates (r : T.Run) : Prop :=
  r.accumulateByComm s.comm s.nodeWeight =
      some (Louvain.accumulateByComm n s.comm s.nodeWeight) ∧
    Louvain.accumulateByComm n s.comm s.nodeWeight = (range n).map s.total

/-- The merge is right just when every thread that it counts is in the team: the buffer of one that
is not stays empty and is read all the same. -/
theorem accumulates_iff (r : T.Run) : r.Accumulates s ↔ T.size = T.maxThreads ∨ n = 0 := by
  have hmerge : r.accumulateByComm s.comm s.nodeWeight =
      (range n).mapM (merge T.maxThreads ((range T.maxThreads).map (s.buffer T))) := by
    rw [Run.accumulateByComm, s.buffers_eq, mapM_map]
    exact congrArg (Option.bind · _) (mapM_eq_some_map fun t _ => rfl)
  rw [Run.Accumulates, s.accumulateByComm_eq, hmerge, and_iff_left rfl]
  constructor
  · intro h
    by_contra hnot
    have hle := T.le_max
    rw [mapM_eq_none (mem_range.mpr (by omega)) (s.merge_eq_none (by omega) 0)] at h
    cases h
  · rintro (hsize | rfl)
    · exact mapM_eq_some_map fun c hc => s.merge_eq_total hsize (mem_range.mp hc)
    · rfl

/-- `Compute` asks for 24 threads, and a limit of the environment leaves it one. -/
def limited : Team 2 :=
  ⟨24, 1, Nat.one_pos, Nat.le_add_left 1 23, fun _ => 0, fun _ _ => Nat.one_pos⟩

/-- The ends of one edge, before any move. -/
def edgeEnds : Assignment 2 := ⟨[0, 1], [1, 1], rfl, rfl, fun _ h => mem_range.mp h⟩

theorem not_accumulates_limited : ¬ limited.sequential.Accumulates edgeEnds := by
  intro h
  cases h.1

end Team

end Neug.Louvain
