import Neug.Transaction.VersionManager

/-! Update exclusion. `pending_reqs_` is accounted for thread by thread: every thread
inside a read or insert transaction, and every blocked acquirer between its increment and
its decrement, owes one, and the updater that closed the gate owes `-thread_num`. With at
most `thread_num` threads the account stays negative while the gate is closed. -/
namespace Neug.VersionManager
open Neug.Lib Finset Option

/-- The part of `pending_reqs_` that a thread at this place is responsible for. -/
def share (threadNum : ℕ) : Pc → ℤ
  | .undoAdd _ | .granted _ | .holdRead _ | .holdInsert _ | .subRead => 1
  | .insLock _ | .insCheck _ | .insScan _ | .insStore _ | .insSet _ | .insUnlock | .insSub => 1
  | .updWait | .updTake | .holdUpdate _ => -threadNum
  | .updLock _ _ | .updCheck _ _ | .updStore _ _ | .updLog _ _ | .updSet _ _ => -threadNum
  | .updUnlock _ | .updAdd _ | .revCas _ | .revAdd => -threadNum
  | _ => 0

/-- One for the thread whose `compare_exchange` set `pending_update_reqs_`. -/
def owner : Pc → ℤ
  | .updSub | .updWait | .updTake | .holdUpdate _ => 1
  | .updLock _ _ | .updCheck _ _ | .updStore _ _ | .updLog _ _ | .updSet _ _ => 1
  | .updUnlock _ | .updAdd _ | .updFlag _ | .revCas _ | .revAdd | .revFlag => 1
  | _ => 0

def exclusiveIn : Pc → Bool
  | .updTake | .holdUpdate _ => true
  | .updLock _ _ | .updCheck _ _ | .updStore _ _ | .updLog _ _ | .updSet _ _ => true
  | .updUnlock _ | .updAdd _ | .revCas _ | .revAdd => true
  | _ => false

def sharedIn : Pc → Bool
  | .granted _ | .holdRead _ | .holdInsert _ | .subRead => true
  | .insLock _ | .insCheck _ | .insScan _ | .insStore _ | .insSet _ | .insUnlock | .insSub => true
  | _ => false

def holdsUpdate : Pc → Bool
  | .holdUpdate _ => true
  | .updLock _ _ | .updCheck _ _ | .updStore _ _ | .updLog _ _ | .updSet _ _ => true
  | .updUnlock _ | .updAdd _ | .revCas _ => true
  | _ => false

/-- Some timestamp is held: read and insert ones until the final `fetch_sub(1)`. -/
def holdsTimestamp : Pc → Bool
  | .holdRead _ | .holdInsert _ | .subRead => true
  | .insLock _ | .insCheck _ | .insScan _ | .insStore _ | .insSet _ | .insUnlock | .insSub => true
  | p => holdsUpdate p

variable {n threadNum : ℕ} {s s' : Sys n} {i j : Fin n} {m m' : Shared} {p p' : Pc}

theorem exclusiveIn_of_holdsUpdate (h : holdsUpdate p = true) : exclusiveIn p = true := by
  cases p <;> simp_all [holdsUpdate, exclusiveIn]

theorem sharedIn_or_holdsUpdate (h : holdsTimestamp p = true) :
    sharedIn p = true ∨ holdsUpdate p = true := by
  cases p <;> simp_all [holdsTimestamp, sharedIn]

theorem share_of_exclusiveIn (h : exclusiveIn p = true) : share threadNum p = -threadNum := by
  cases p <;> simp_all [exclusiveIn, share]

theorem owner_of_exclusiveIn (h : exclusiveIn p = true) : owner p = 1 := by
  cases p <;> simp_all [exclusiveIn, owner]

theorem share_of_sharedIn (h : sharedIn p = true) : share threadNum p = 1 := by
  cases p <;> simp_all [sharedIn, share]

theorem share_le_one (threadNum : ℕ) (p : Pc) : share threadNum p ≤ 1 := by
  cases p <;> simp only [share] <;> omega

theorem share_nonneg_of_not_owner (threadNum : ℕ) (h : owner p = 0) : 0 ≤ share threadNum p := by
  cases p <;> simp_all [owner, share]

theorem owner_nonneg (p : Pc) : 0 ≤ owner p := by
  cases p <;> simp [owner]

/-- Moving one thread changes a sum over all threads by that thread's difference. -/
theorem sum_put (f : Pc → ℤ) (s : Sys n) (i : Fin n) (m : Shared) (p : Pc) :
    ∑ j, f ((s.put i m p).pc j) = ∑ j, f (s.pc j) + (f p - f (s.pc i)) := by
  rw [← add_sum_erase _ _ (mem_univ i), ← add_sum_erase _ (fun j => f (s.pc j)) (mem_univ i)]
  have hrest : ∑ j ∈ univ.erase i, f ((s.put i m p).pc j) = ∑ j ∈ univ.erase i, f (s.pc j) := by
    apply sum_congr rfl
    intro j hj
    rw [put_pc_of_ne s m p (ne_of_mem_erase hj)]
  rw [hrest, put_pc_self]
  ring

theorem call_share (threadNum : ℕ) {c : Call} (h : call c p = some p') :
    share threadNum p' = share threadNum p ∧ owner p' = owner p ∧
      exclusiveIn p' = exclusiveIn p ∧ sharedIn p' = sharedIn p := by
  cases c <;> cases p <;> simp_all [call] <;> subst p' <;>
    simp [share, owner, exclusiveIn, sharedIn]

section

variable (h : tick threadNum m p = some (m', p'))
include h

theorem tick_share (hp : p ≠ .clearPending) :
    m'.pendingReqs = m.pendingReqs + (share threadNum p' - share threadNum p) := by
  unfold tick at h
  split at h <;> simp only [some.injEq, reduceCtorEq] at h <;> try split at h
  all_goals obtain ⟨rfl, rfl⟩ := h
  all_goals simp_all [share, Shared.setBit]
  all_goals ring

theorem tick_owner : (m'.pendingUpdateReqs = m.pendingUpdateReqs ∧ owner p' = owner p) ∨
      (m.pendingUpdateReqs = 0 ∧ m'.pendingUpdateReqs = 1 ∧ owner p = 0 ∧ owner p' = 1) ∨
      (m'.pendingUpdateReqs = 0 ∧ owner p = 1 ∧ owner p' = 0) := by
  unfold tick at h
  split at h <;> simp only [some.injEq, reduceCtorEq] at h <;> try split at h
  all_goals obtain ⟨rfl, rfl⟩ := h
  all_goals simp_all [owner, Shared.setBit]

theorem tick_exclusiveIn (h' : exclusiveIn p' = true) :
    exclusiveIn p = true ∨ (p = .updSub ∧ m.pendingReqs = 0) ∨
      (p = .updWait ∧ m.pendingReqs = -threadNum) := by
  unfold tick at h
  split at h <;> simp only [some.injEq, reduceCtorEq] at h <;> try split at h
  all_goals obtain ⟨rfl, rfl⟩ := h
  all_goals simp_all [exclusiveIn]

theorem tick_sharedIn (h' : sharedIn p' = true) :
    sharedIn p = true ∨ (∃ k, p = .add k) ∧ 0 ≤ m.pendingReqs := by
  unfold tick at h
  split at h <;> simp only [some.injEq, reduceCtorEq] at h <;> try split at h
  all_goals obtain ⟨rfl, rfl⟩ := h
  all_goals simp_all [sharedIn]

end

structure Gate (threadNum : ℕ) (s : Sys n) : Prop where
  pending : s.mem.pendingReqs = ∑ i, share threadNum (s.pc i)
  flag : s.mem.pendingUpdateReqs = ∑ i, owner (s.pc i)
  single : ∑ i, owner (s.pc i) ≤ 1
  apart : ∀ i j, exclusiveIn (s.pc i) = true → sharedIn (s.pc j) = true → False

theorem Gate.owner_eq_zero (h : Gate threadNum s) (hi : owner (s.pc i) = 1) (hij : j ≠ i) :
    owner (s.pc j) = 0 := by
  have hpair : owner (s.pc i) + owner (s.pc j) ≤ ∑ k, owner (s.pc k) := by
    rw [← sum_pair (f := fun k => owner (s.pc k)) hij.symm]
    exact sum_le_sum_of_subset_of_nonneg (subset_univ _) fun k _ _ => owner_nonneg _
  have := h.single
  have := owner_nonneg (s.pc j)
  omega

/-- An owner whose own share explains the whole account is alone inside the gate. -/
theorem Gate.no_shared (h : Gate threadNum s) (hi : owner (s.pc i) = 1)
    (hp : s.mem.pendingReqs = share threadNum (s.pc i)) (hij : j ≠ i) :
    sharedIn (s.pc j) = false := by
  by_contra hj
  have hj' : share threadNum (s.pc j) = 1 := share_of_sharedIn (by simpa using hj)
  have hsum : ∑ k ∈ univ.erase i, share threadNum (s.pc k) = 0 := by
    have := add_sum_erase univ (fun k => share threadNum (s.pc k)) (mem_univ i)
    have := h.pending
    omega
  have hle : share threadNum (s.pc j) ≤ ∑ k ∈ univ.erase i, share threadNum (s.pc k) := by
    apply single_le_sum (f := fun k => share threadNum (s.pc k)) _ (by simpa using hij)
    intro k hk
    exact share_nonneg_of_not_owner _ (h.owner_eq_zero hi (ne_of_mem_erase hk))
  omega

/-- While the gate is closed the account stays negative: `thread_num` outweighs every
other thread, and a thread about to add has not yet added. -/
theorem Gate.pending_neg (hn : n ≤ threadNum) (h : Gate threadNum s)
    (hi : exclusiveIn (s.pc i) = true) (hj : share threadNum (s.pc j) ≤ 0) (hij : j ≠ i) :
    s.mem.pendingReqs < 0 := by
  have hmem : j ∈ univ.erase i := by simpa using hij
  have hrest : ∑ k ∈ (univ.erase i).erase j, share threadNum (s.pc k) ≤ (n - 2 : ℕ) := by
    have hcard : ((univ.erase i).erase j).card = n - 2 := by
      rw [card_erase_of_mem hmem, card_erase_of_mem (mem_univ i), card_univ, Fintype.card_fin]
      omega
    rw [← hcard]
    simpa using sum_le_card_nsmul _ (fun k => share threadNum (s.pc k)) 1
      fun k _ => share_le_one _ _
  have hi' := add_sum_erase univ (fun k => share threadNum (s.pc k)) (mem_univ i)
  have hj' := add_sum_erase (univ.erase i) (fun k => share threadNum (s.pc k)) hmem
  have hshare : share threadNum (s.pc i) = -threadNum := share_of_exclusiveIn hi
  have := h.pending
  omega

theorem gate_start (threadNum n ts : ℕ) : Gate threadNum (start n ts) := by
  constructor <;> simp [start, share, owner, exclusiveIn]

theorem put_congr {α : Type} (f : Pc → α) (hf : f p = f (s.pc i)) (j : Fin n) :
    f ((s.put i m p).pc j) = f (s.pc j) := by
  rw [put_pc]
  split_ifs with hj
  · rw [hf, hj]
  · rfl

theorem Gate.call {c : Call} (h : Gate threadNum s) (hc : call c (s.pc i) = some p) :
    Gate threadNum (s.put i s.mem p) := by
  obtain ⟨hshare, howner, hex, hin⟩ := call_share threadNum hc
  constructor
  · simpa only [put_mem, put_congr _ hshare] using h.pending
  · simpa only [put_mem, put_congr _ howner] using h.flag
  · simpa only [put_congr _ howner] using h.single
  · simpa only [put_congr _ hex, put_congr _ hin] using h.apart

/-- A thread that becomes exclusive finds nobody inside, and a thread that comes in
finds nobody exclusive. -/
theorem Gate.apart_tick (hn : n ≤ threadNum) (h : Gate threadNum s)
    (ht : tick threadNum s.mem (s.pc i) = some (m, p)) (j k : Fin n)
    (hj : exclusiveIn ((s.put i m p).pc j) = true)
    (hk : sharedIn ((s.put i m p).pc k) = true) : False := by
  rw [put_pc] at hj hk
  split_ifs at hj hk with hji hki hki
  · cases p <;> simp_all [exclusiveIn, sharedIn]
  · rcases tick_exclusiveIn ht hj with hi | ⟨hi, h0⟩ | ⟨hi, h0⟩
    · exact h.apart i k hi hk
    · exact Bool.false_ne_true
        ((h.no_shared (by rw [hi]; rfl) (by rw [hi, h0]; rfl) hki).symm.trans hk)
    · exact Bool.false_ne_true
        ((h.no_shared (by rw [hi]; rfl) (by rw [hi, h0]; rfl) hki).symm.trans hk)
  · rcases tick_sharedIn ht hk with hi | ⟨⟨kind, hi⟩, h0⟩
    · exact h.apart j i hj hi
    · have hneg := h.pending_neg hn hj (by rw [hi]; rfl) (Ne.symm hji)
      omega
  · exact h.apart j k hj hk

theorem Gate.flag_tick (h : Gate threadNum s) (ht : tick threadNum s.mem (s.pc i) = some (m, p)) :
    m.pendingUpdateReqs = ∑ j, owner ((s.put i m p).pc j) ∧
      ∑ j, owner ((s.put i m p).pc j) ≤ 1 := by
  have hflag := h.flag
  have hsingle := h.single
  have hi : owner (s.pc i) ≤ ∑ j, owner (s.pc j) :=
    single_le_sum (fun j _ => owner_nonneg _) (mem_univ i)
  rw [sum_put]
  rcases tick_owner ht with ⟨h1, h2⟩ | ⟨h1, h2, h3, h4⟩ | ⟨h1, h2, h3⟩ <;> omega

/-- One step keeps the account. `clear()` zeroes `pending_reqs_`, so it may only do so
while nobody owes anything. -/
theorem Gate.step {l : Fin n × Act} (hn : n ≤ threadNum) (h : Gate threadNum s)
    (hclear : s.pc l.1 = .clearPending → ∀ j, share threadNum (s.pc j) = 0)
    (hs : step threadNum s l = some s') : Gate threadNum s' := by
  obtain ⟨i, a⟩ := l
  obtain ⟨c, p, rfl, hc, rfl⟩ | ⟨m, p, rfl, ht, rfl⟩ := step_cases hs
  · exact h.call hc
  · obtain ⟨hflag, hsingle⟩ := h.flag_tick ht
    refine ⟨?_, hflag, hsingle, h.apart_tick hn ht⟩
    rw [sum_put, ← h.pending]
    by_cases hp : s.pc i = .clearPending
    · have hzero : s.mem.pendingReqs = 0 := by
        rw [h.pending]
        exact sum_eq_zero fun j _ => hclear hp j
      rw [hp] at ht
      obtain ⟨rfl, rfl⟩ : ({ s.mem with pendingReqs := 0 }) = m ∧ Pc.clearBuf = p := by
        simpa [tick] using ht
      simp [hp, hzero, share]
    · exact tick_share ht hp

/-- The places a thread can reach without `CompactTransaction::Commit`. -/
def clearFree : Pc → Bool
  | .updLock c _ | .updCheck c _ | .updStore c _ | .updLog c _ | .updSet c _ => !c
  | .updUnlock c | .updAdd c | .updFlag c => !c
  | .clearWrite | .clearRead | .clearPending | .clearBuf => false
  | _ => true

/-- The guard of runs that never call `clear()`. -/
def noClear (_ : Sys n) (l : Fin n × Act) : Prop := l.2 ≠ .call .compactCommit

instance (s : Sys n) (l : Fin n × Act) : Decidable (noClear s l) :=
  inferInstanceAs (Decidable (l.2 ≠ .call .compactCommit))

theorem call_clearFree {c : Call} (h : call c p = some p') (hc : c ≠ .compactCommit)
    (hp : clearFree p = true) : clearFree p' = true := by
  cases c <;> cases p <;> simp_all [call] <;> subst p' <;> rfl

theorem tick_clearFree (h : tick threadNum m p = some (m', p')) (hp : clearFree p = true) :
    clearFree p' = true := by
  unfold tick at h
  split at h <;> simp only [some.injEq, reduceCtorEq] at h <;> try split at h
  all_goals obtain ⟨rfl, rfl⟩ := h
  all_goals simp_all [clearFree]

theorem clearFree_step {l : Fin n × Act} (h : ∀ j, clearFree (s.pc j) = true) (hok : noClear s l)
    (hs : step threadNum s l = some s') : ∀ j, clearFree (s'.pc j) = true := by
  obtain ⟨i, a⟩ := l
  intro j
  obtain ⟨c, p, rfl, hc, rfl⟩ | ⟨m, p, rfl, ht, rfl⟩ := step_cases hs
  · have hp := call_clearFree hc (fun e => hok (congrArg Act.call e)) (h i)
    exact (put_congr _ (hp.trans (h i).symm) j).trans (h j)
  · exact (put_congr _ ((tick_clearFree ht (h i)).trans (h i).symm) j).trans (h j)

theorem gate_of_reach (hn : n ≤ threadNum) (h : Reach Initial (step threadNum) noClear s) :
    Gate threadNum s ∧ ∀ j, clearFree (s.pc j) = true := by
  refine h.invariant
    (J := fun s => Gate threadNum s ∧ ∀ j, clearFree (s.pc j) = true) (fun _ _ => trivial) ?_ ?_
  · rintro s ⟨ts, -, rfl⟩
    exact ⟨gate_start threadNum n ts, fun _ => rfl⟩
  · rintro s l s' - ⟨hg, hf⟩ hok hs
    refine ⟨hg.step hn ?_ hs, clearFree_step hf hok hs⟩
    intro hp
    have := hf l.1
    simp [hp, clearFree] at this

/-- In every reachable state a thread with an update timestamp is the only one with a
timestamp of any kind. -/
theorem holdsUpdate_exclusive (hn : n ≤ threadNum)
    (h : Reach Initial (step threadNum) noClear s) (hi : holdsUpdate (s.pc i) = true)
    (hij : j ≠ i) : holdsTimestamp (s.pc j) = false := by
  obtain ⟨hg, -⟩ := gate_of_reach hn h
  have hex := exclusiveIn_of_holdsUpdate hi
  by_contra hj
  rcases sharedIn_or_holdsUpdate (by simpa using hj) with hin | hup
  · exact hg.apart i j hex hin
  · have hzero := hg.owner_eq_zero (owner_of_exclusiveIn hex) hij
    have hone := owner_of_exclusiveIn (exclusiveIn_of_holdsUpdate hup)
    omega

/-- Thread 0 is granted an update timestamp while thread 1 stands between its increment
and its decrement. -/
def blockedReader : List (Fin 2 × Act) :=
  calls 0 .acquireUpdate 2 ++ calls 1 .acquireRead 1 ++ ticks 0 1

theorem holdsUpdate_exclusive_blockedReader :
    ∃ s : Sys 2, (s.pc 0 = .holdUpdate 1 ∧ s.pc 1 = .undoAdd .read) ∧
      holdsTimestamp (s.pc 1) = false := by
  have hstart : Reach Initial (step 2) noClear (start 2 0) := .init ⟨0, by decide, rfl⟩
  obtain ⟨s, hreach, hpc⟩ := hstart.exists_of_execute blockedReader
    (fun s => s.pc 0 = .holdUpdate 1 ∧ s.pc 1 = .undoAdd .read) (by decide +kernel)
  exact ⟨s, hpc, holdsUpdate_exclusive le_rfl hreach (by rw [hpc.1]; rfl) (by decide)⟩

end Neug.VersionManager
