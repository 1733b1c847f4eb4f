import Neug.Lib.Reach

/-! `TPVersionManager`, one step per atomic access. A thread that is inside one of the
manager's functions stands at a `Pc`; `tick` performs the access that comes next there.
Calling a function touches no shared memory, so it is a step of its own. -/
namespace Neug.VersionManager

/-- `uint32_t` arithmetic. -/
def wrap32 (x : ℕ) : ℕ := x % 2 ^ 32

/-- `ring_buf_size`; the mask `ring_buf_size - 1` takes remainders by it. -/
def ringBufSize : ℕ := 1024 * 1024
def ringIndex (ts : ℕ) : ℕ := ts % ringBufSize

inductive Kind where
  | read
  | insert
  deriving DecidableEq, Repr

/-- The access a thread performs next. The flag of the update release says whether
`CompactTransaction::Commit` made the call, so that `clear()` follows. -/
inductive Pc where
  | idle
  -- acquire_read_timestamp and acquire_insert_timestamp
  | add (k : Kind)
  | undoAdd (k : Kind)
  | retry (k : Kind)
  | granted (k : Kind)
  | holdRead (ts : ℕ)
  | holdInsert (ts : ℕ)
  -- release_read_timestamp
  | subRead
  -- release_insert_timestamp
  | insLock (ts : ℕ)
  | insCheck (ts : ℕ)
  | insScan (ts : ℕ)
  | insStore (ts : ℕ)
  | insSet (ts : ℕ)
  | insUnlock
  | insSub
  -- acquire_update_timestamp
  | updCas
  | updSub
  | updWait
  | updTake
  | holdUpdate (ts : ℕ)
  -- release_update_timestamp
  | updLock (clear : Bool) (ts : ℕ)
  | updCheck (clear : Bool) (ts : ℕ)
  | updStore (clear : Bool) (ts : ℕ)
  | updLog (clear : Bool) (ts : ℕ)
  | updSet (clear : Bool) (ts : ℕ)
  | updUnlock (clear : Bool)
  | updAdd (clear : Bool)
  | updFlag (clear : Bool)
  -- revert_update_timestamp
  | revCas (ts : ℕ)
  | revAdd
  | revFlag
  -- clear
  | clearWrite
  | clearRead
  | clearPending
  | clearBuf
  deriving DecidableEq, Repr

/-- The members of `TPVersionManager` that its functions change. -/
structure Shared where
  writeTs : ℕ
  readTs : ℕ
  pendingReqs : ℤ
  pendingUpdateReqs : ℤ
  buf : ℕ → Bool
  lock : Bool

/-- `buf_.atomic_set(i)` and the write half of `buf_.atomic_reset_with_ret(i)`. -/
def Shared.setBit (m : Shared) (i : ℕ) (b : Bool) : Shared :=
  { m with buf := fun j => if j = i then b else m.buf j }

inductive Call where
  | acquireRead
  | acquireInsert
  | acquireUpdate
  | release
  | revertUpdate
  | compactCommit
  deriving DecidableEq, Repr

def call : Call → Pc → Option Pc
  | .acquireRead, .idle => some (.add .read)
  | .acquireInsert, .idle => some (.add .insert)
  | .acquireUpdate, .idle => some .updCas
  | .release, .holdRead _ => some .subRead
  | .release, .holdInsert ts => some (.insLock ts)
  | .release, .holdUpdate ts => some (.updLock false ts)
  | .revertUpdate, .holdUpdate ts => some (.revCas ts)
  | .compactCommit, .holdUpdate ts => some (.updLock true ts)
  | _, _ => none

/-- The next atomic access of a thread at a given place. Spinning leaves the thread
where it is; a failed `compare_exchange` of `revert_update_timestamp` returns `false`
to a caller that still holds its timestamp. -/
def tick (threadNum : ℕ) (m : Shared) : Pc → Option (Shared × Pc)
  | .idle | .holdRead _ | .holdInsert _ | .holdUpdate _ => none
  | .add k => some ({ m with pendingReqs := m.pendingReqs + 1 },
      if 0 ≤ m.pendingReqs then .granted k else .undoAdd k)
  | .undoAdd k => some ({ m with pendingReqs := m.pendingReqs - 1 }, .retry k)
  | .retry k => some (m, if 0 ≤ m.pendingReqs then .add k else .retry k)
  | .granted .read => some (m, .holdRead m.readTs)
  | .granted .insert =>
      some ({ m with writeTs := wrap32 (m.writeTs + 1) }, .holdInsert m.writeTs)
  | .subRead => some ({ m with pendingReqs := m.pendingReqs - 1 }, .idle)
  | .insLock ts => some (if m.lock then (m, .insLock ts) else ({ m with lock := true }, .insCheck ts))
  | .insCheck ts => some (m, if ts = wrap32 (m.readTs + 1) then .insScan ts else .insSet ts)
  | .insScan ts =>
      let i := ringIndex (ts + 1)
      some (m.setBit i false, if m.buf i then .insScan (wrap32 (ts + 1)) else .insStore ts)
  | .insStore ts => some ({ m with readTs := ts }, .insUnlock)
  | .insSet ts => some (m.setBit (ringIndex ts) true, .insUnlock)
  | .insUnlock => some ({ m with lock := false }, .insSub)
  | .insSub => some ({ m with pendingReqs := m.pendingReqs - 1 }, .idle)
  | .updCas => some (if m.pendingUpdateReqs = 0 then ({ m with pendingUpdateReqs := 1 }, .updSub)
      else (m, .updCas))
  | .updSub => some ({ m with pendingReqs := m.pendingReqs - threadNum },
      if m.pendingReqs = 0 then .updTake else .updWait)
  | .updWait => some (m, if m.pendingReqs = -threadNum then .updTake else .updWait)
  | .updTake => some ({ m with writeTs := wrap32 (m.writeTs + 1) }, .holdUpdate m.writeTs)
  | .updLock c ts =>
      some (if m.lock then (m, .updLock c ts) else ({ m with lock := true }, .updCheck c ts))
  | .updCheck c ts => some (m, if ts = wrap32 (m.readTs + 1) then .updStore c ts else .updLog c ts)
  | .updStore c ts => some ({ m with readTs := ts }, .updUnlock c)
  | .updLog c ts => some (m, .updSet c ts)
  | .updSet c ts => some (m.setBit (ringIndex ts) true, .updUnlock c)
  | .updUnlock c => some ({ m with lock := false }, .updAdd c)
  | .updAdd c => some ({ m with pendingReqs := m.pendingReqs + threadNum }, .updFlag c)
  | .updFlag c => some ({ m with pendingUpdateReqs := 0 }, if c then .clearWrite else .idle)
  | .revCas ts => some (if m.writeTs = wrap32 (ts + 1) then ({ m with writeTs := ts }, .revAdd)
      else (m, .holdUpdate ts))
  | .revAdd => some ({ m with pendingReqs := m.pendingReqs + threadNum }, .revFlag)
  | .revFlag => some ({ m with pendingUpdateReqs := 0 }, .idle)
  | .clearWrite => some ({ m with writeTs := 1 }, .clearRead)
  | .clearRead => some ({ m with readTs := 0 }, .clearPending)
  | .clearPending => some ({ m with pendingReqs := 0 }, .clearBuf)
  | .clearBuf => some ({ m with buf := fun _ => false }, .idle)

scoped instance neZeroTwo : NeZero 2 := ⟨two_ne_zero⟩

structure Sys (n : ℕ) where
  mem : Shared
  pc : Fin n → Pc

inductive Act where
  | call (c : Call)
  | tick
  deriving DecidableEq, Repr

variable {n : ℕ}

/-- Thread `i` moves to `p` and leaves the memory as `m`. -/
def Sys.put (s : Sys n) (i : Fin n) (m : Shared) (p : Pc) : Sys n :=
  ⟨m, fun j => if j = i then p else s.pc j⟩

def step (threadNum : ℕ) (s : Sys n) (l : Fin n × Act) : Option (Sys n) :=
  match l.2 with
  | .call c => (call c (s.pc l.1)).map (s.put l.1 s.mem)
  | .tick => (tick threadNum s.mem (s.pc l.1)).map fun r => s.put l.1 r.1 r.2

/-- The constructor followed by `init_ts(ts, thread_num)`, before any thread runs. -/
def start (n ts : ℕ) : Sys n where
  mem := { writeTs := wrap32 (ts + 1), readTs := ts, pendingReqs := 0, pendingUpdateReqs := 0,
           buf := fun _ => false, lock := false }
  pc _ := .idle

/-- The initial states: any `uint32_t` timestamp may have been recovered. -/
def Initial (s : Sys n) : Prop := ∃ ts < 2 ^ 32, s = start n ts

/-- Schedules: a thread performs `k` accesses, or calls a function first. -/
def ticks (i : Fin n) (k : ℕ) : List (Fin n × Act) := List.replicate k (i, .tick)
def calls (i : Fin n) (c : Call) (k : ℕ) : List (Fin n × Act) := (i, .call c) :: ticks i k

@[simp] theorem put_mem (s : Sys n) (i : Fin n) (m : Shared) (p : Pc) : (s.put i m p).mem = m := rfl

theorem put_pc (s : Sys n) (i j : Fin n) (m : Shared) (p : Pc) :
    (s.put i m p).pc j = if j = i then p else s.pc j := rfl

@[simp] theorem put_pc_self (s : Sys n) (i : Fin n) (m : Shared) (p : Pc) :
    (s.put i m p).pc i = p := if_pos rfl

theorem put_pc_of_ne (s : Sys n) {i j : Fin n} (m : Shared) (p : Pc) (h : j ≠ i) :
    (s.put i m p).pc j = s.pc j := if_neg h

@[simp] theorem put_put (s : Sys n) (i : Fin n) (m m' : Shared) (p p' : Pc) :
    (s.put i m p).put i m' p' = s.put i m' p' := by
  simp only [Sys.put, Sys.mk.injEq, true_and]
  funext j
  split_ifs <;> rfl

/-- What a step can do: a call moves one thread and leaves the memory alone, a tick
performs that thread's access. -/
theorem step_cases {threadNum : ℕ} {s s' : Sys n} {i : Fin n} {a : Act}
    (h : step threadNum s (i, a) = some s') :
    (∃ c p, a = .call c ∧ call c (s.pc i) = some p ∧ s' = s.put i s.mem p) ∨
    (∃ m p, a = .tick ∧ tick threadNum s.mem (s.pc i) = some (m, p) ∧ s' = s.put i m p) := by
  cases a with
  | call c =>
    obtain ⟨p, hp, rfl⟩ := Option.map_eq_some_iff.mp h
    exact .inl ⟨c, p, rfl, hp, rfl⟩
  | tick =>
    obtain ⟨⟨m, p⟩, hp, rfl⟩ := Option.map_eq_some_iff.mp h
    exact .inr ⟨m, p, rfl, hp, rfl⟩

end Neug.VersionManager
