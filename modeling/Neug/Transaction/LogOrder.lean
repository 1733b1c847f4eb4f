import Neug.Transaction.Handover

/-! The write-ahead log. A transaction appends its record while it holds its timestamp, and
`ingestWals` replays records in timestamp order. The log is not truncated when
`CompactTransaction::Commit` restarts the numbering. -/
namespace Neug.VersionManager
open Neug.Lib List Option Function

variable {n : ℕ}

/-- A record with its header's timestamp, and when its transaction acquired and released. -/
structure WalRecord (n : ℕ) where
  timestamp : ℕ
  owner : Fin n
  acquired : ℕ
  released : Option ℕ
  deriving DecidableEq

structure Logging (n : ℕ) where
  sys : Sys n
  wal : List (WalRecord n)
  clock : ℕ
  acquiredAt : Fin n → ℕ
  /-- The thread's transaction has appended its record. -/
  logged : Fin n → Bool
  /-- The thread's timestamp was handed out after `clear()` had stored `write_ts_`. -/
  renumbered : Fin n → Bool
  cleared : Bool

/-- What a transaction does: `logger_.append`, or a step inside the version manager. -/
inductive WalAct where
  | append
  | act (a : Act)
  deriving DecidableEq, Repr

/-- The timestamp a transaction can still log or give back, and whether it is an update. -/
def pendingTs : Pc → Option (Bool × ℕ)
  | .holdInsert ts => some (false, ts)
  | .holdUpdate ts | .revCas ts => some (true, ts)
  | _ => none

def publishes : Pc → Bool
  | .insStore _ | .insSet _ | .updStore _ _ | .updSet _ _ => true
  | _ => false

def stamp (i : Fin n) (clock : ℕ) (r : WalRecord n) : WalRecord n :=
  if r.owner = i ∧ r.released = none then { r with released := some clock } else r

def Logging.record (g : Logging n) (i : Fin n) (a : Act) (s' : Sys n) : Logging n :=
  let g' := { g with sys := s', clock := g.clock + 1 }
  match a with
  | .call _ => g'
  | .tick =>
    if takes (g.sys.pc i) then
      { g' with acquiredAt := Function.update g.acquiredAt i g.clock
                logged := Function.update g.logged i false
                renumbered := Function.update g.renumbered i g.cleared }
    else if publishes (g.sys.pc i) then { g' with wal := g.wal.map (stamp i g.clock) }
    else if g.sys.pc i = .clearWrite then { g' with cleared := true }
    else g'

def Logging.append (g : Logging n) (i : Fin n) (ts : ℕ) : Logging n :=
  { g with wal := g.wal ++ [⟨ts, i, g.acquiredAt i, none⟩], clock := g.clock + 1
           logged := Function.update g.logged i true }

/-- One step of one thread. `Commit` appends before it releases, and at most once;
`CompactTransaction::Commit` always appends. -/
def walStep (threadNum : ℕ) (g : Logging n) (l : Fin n × WalAct) : Option (Logging n) :=
  match l.2 with
  | .append =>
    if g.logged l.1 then none
    else match g.sys.pc l.1 with
      | .holdInsert ts | .holdUpdate ts => some (g.append l.1 ts)
      | _ => none
  | .act a =>
    if a = .call .compactCommit ∧ g.logged l.1 = false then none
    else (step threadNum g.sys (l.1, a)).map (g.record l.1 a)

def loggingStart (n ts : ℕ) : Logging n :=
  ⟨start n ts, [], 0, fun _ => 0, fun _ => false, fun _ => false, false⟩

def LoggingInitial (g : Logging n) : Prop := ∃ ts < 2 ^ 32, g = loggingStart n ts

/-- Records of one timestamp are one record, and a transaction that acquired after another
had released has the larger timestamp. -/
structure Chronological (wal : List (WalRecord n)) : Prop where
  nodup : (wal.map WalRecord.timestamp).Nodup
  order : ∀ r ∈ wal, ∀ r' ∈ wal, ∀ t, r.released = some t → t < r'.acquired →
    r.timestamp < r'.timestamp

/-- The guard of faithful logs: a transaction numbered after `clear()` logs nothing, a logged
timestamp is not given back, and `write_ts_` does not overflow. -/
def faithfulLog (g : Logging n) (l : Fin n × WalAct) : Prop :=
  (l.2 = .append → g.renumbered l.1 = false) ∧
  (l.2 = .act (.call .revertUpdate) → g.logged l.1 = false) ∧
  (takes (g.sys.pc l.1) = true → g.sys.mem.writeTs + 1 < 2 ^ 32)

instance (g : Logging n) (l : Fin n × WalAct) : Decidable (faithfulLog g l) :=
  inferInstanceAs (Decidable ((_ → _) ∧ (_ → _) ∧ (_ → _)))

variable {threadNum : ℕ} {g g' : Logging n} {i j : Fin n} {m m' : Shared} {p p' : Pc}
  {l : Fin n × WalAct} {wal wal' : List (WalRecord n)}

/-- What an access does to `write_ts_` and to the timestamp that can still be logged. -/
theorem tick_pendingTs (h : tick threadNum m p = some (m', p')) :
    (takes p = true ∧ m'.writeTs = wrap32 (m.writeTs + 1) ∧
      ∃ u, pendingTs p' = some (u, m.writeTs)) ∨
    (takes p = false ∧ p = .clearWrite ∧ pendingTs p' = none) ∨
    (takes p = false ∧ p ≠ .clearWrite ∧ ∃ ts, p = .revCas ts ∧ m.writeTs = wrap32 (ts + 1) ∧
      m'.writeTs = ts ∧ pendingTs p' = none) ∨
    (takes p = false ∧ p ≠ .clearWrite ∧ m'.writeTs = m.writeTs ∧
      (pendingTs p' = pendingTs p ∨ pendingTs p' = none)) := by
  unfold tick at h
  split at h <;> simp only [some.injEq, reduceCtorEq] at h <;> try split at h
  all_goals obtain ⟨rfl, rfl⟩ := h
  all_goals simp_all [takes, pendingTs, Shared.setBit]

theorem call_pendingTs {c : Call} (h : call c p = some p') :
    (pendingTs p' = pendingTs p ∨ pendingTs p' = none) ∧
      ((∃ ts, p' = .revCas ts) → c = .revertUpdate) := by
  cases c <;> cases p <;> simp_all [call] <;> subst p' <;> simp [pendingTs]

variable {ts : ℕ} {u : Bool}

theorem tick_not_revCas (h : tick threadNum m p = some (m', p')) : p' ≠ .revCas ts := by
  unfold tick at h
  split at h <;> simp only [some.injEq, reduceCtorEq] at h <;> try split at h
  all_goals obtain ⟨rfl, rfl⟩ := h
  all_goals simp

/-- Time passes over a log: records keep their timestamps and acquisition times, and a
release that happens now is stamped with the clock. -/
structure Aged (clock : ℕ) (wal wal' : List (WalRecord n)) : Prop where
  timestamps : wal'.map WalRecord.timestamp = wal.map WalRecord.timestamp
  source : ∀ r' ∈ wal', ∃ r ∈ wal, r'.timestamp = r.timestamp ∧ r'.acquired = r.acquired ∧
    (r'.released = r.released ∨ r'.released = some clock)

theorem aged_refl (clock : ℕ) (wal : List (WalRecord n)) : Aged clock wal wal :=
  ⟨rfl, fun r hr => ⟨r, hr, rfl, rfl, .inl rfl⟩⟩

theorem aged_stamp (i : Fin n) (clock : ℕ) (wal : List (WalRecord n)) :
    Aged clock wal (wal.map (stamp i clock)) := by
  constructor
  · rw [List.map_map]
    apply map_congr_left
    intro r _
    unfold stamp
    simp only [comp_apply]
    split_ifs <;> rfl
  · intro r' hr'
    obtain ⟨r, hr, rfl⟩ := mem_map.mp hr'
    refine ⟨r, hr, ?_⟩
    unfold stamp
    split_ifs
    · exact ⟨rfl, rfl, .inr rfl⟩
    · exact ⟨rfl, rfl, .inl rfl⟩

/-- What is known of every run: the log is chronological, and a timestamp that can still be
logged fits behind it. -/
structure LogInv (g : Logging n) : Prop where
  chron : Chronological g.wal
  acquired_lt : ∀ r ∈ g.wal, r.acquired < g.clock
  held_lt : ∀ i, pendingTs (g.sys.pc i) ≠ none → g.acquiredAt i < g.clock
  fresh : ∀ i u ts, pendingTs (g.sys.pc i) = some (u, ts) → g.renumbered i = false →
    g.logged i = false → ts ∉ g.wal.map WalRecord.timestamp
  ahead : ∀ i u ts, pendingTs (g.sys.pc i) = some (u, ts) → g.renumbered i = false →
    ∀ r ∈ g.wal, ∀ t, r.released = some t → t < g.acquiredAt i → r.timestamp < ts
  distinct : ∀ i j u v ts, pendingTs (g.sys.pc i) = some (u, ts) →
    pendingTs (g.sys.pc j) = some (v, ts) → g.renumbered i = false → g.renumbered j = false →
    i = j
  unlogged : ∀ i ts, g.sys.pc i = .revCas ts → g.logged i = false

/-- Before `clear()` has stored anything, `write_ts_` is above every timestamp in use. -/
structure LogLive (threadNum : ℕ) (g : Logging n) : Prop where
  gate : Gate threadNum g.sys
  calm : ∀ i, clearing (g.sys.pc i) = false
  wal_lt : ∀ r ∈ g.wal, r.timestamp < g.sys.mem.writeTs
  held : ∀ i u ts, pendingTs (g.sys.pc i) = some (u, ts) →
    ts < g.sys.mem.writeTs ∧ (u = true → ts + 1 = g.sys.mem.writeTs)
  original : ∀ i, g.renumbered i = false

theorem Chronological.aged (h : Chronological wal) {clock : ℕ} (ha : Aged clock wal wal')
    (hacq : ∀ r ∈ wal, r.acquired < clock) : Chronological wal' := by
  refine ⟨ha.timestamps ▸ h.nodup, ?_⟩
  intro r hr r' hr' t ht hlt
  obtain ⟨q, hq, hts, -, hrel⟩ := ha.source r hr
  obtain ⟨q', hq', hts', hacq', -⟩ := ha.source r' hr'
  rw [hts, hts']
  rw [hacq'] at hlt
  rcases hrel with hrel | hrel
  · exact h.order q hq q' hq' t (hrel ▸ ht) hlt
  · -- a release stamped now is not before any acquisition in the log
    have := hacq q' hq'
    rw [hrel, some.injEq] at ht
    omega

/-- A step that hands out nothing: the thread keeps or loses what it could log. -/
theorem LogInv.pass (h : LogInv g) {s' : Sys n} {c : Bool}
    (hpend : ∀ j, pendingTs (s'.pc j) = pendingTs (g.sys.pc j) ∨ pendingTs (s'.pc j) = none)
    (hrev : ∀ j ts, s'.pc j = .revCas ts → g.logged j = false) (ha : Aged g.clock g.wal wal') :
    LogInv { g with sys := s', wal := wal', clock := g.clock + 1, cleared := c } := by
  have hsome : ∀ j q, pendingTs (s'.pc j) = some q → pendingTs (g.sys.pc j) = some q := by
    intro j q hq
    rcases hpend j with he | he
    · exact he ▸ hq
    · simp [he] at hq
  have hne : ∀ j, pendingTs (s'.pc j) ≠ none → pendingTs (g.sys.pc j) ≠ none := by
    intro j hj
    obtain ⟨q, hq⟩ := ne_none_iff_exists'.mp hj
    simp [hsome j q hq]
  refine { chron := h.chron.aged ha h.acquired_lt, unlogged := hrev
           held_lt := fun j hj => (h.held_lt j (hne j hj)).trans (Nat.lt_succ_self _)
           distinct := fun j k u v ts hj hk => h.distinct j k u v ts (hsome _ _ hj) (hsome _ _ hk)
           acquired_lt := ?_, fresh := ?_, ahead := ?_ }
  · intro r hr
    obtain ⟨q, hq, -, hacq, -⟩ := ha.source r hr
    rw [hacq]
    exact (h.acquired_lt q hq).trans (Nat.lt_succ_self _)
  · intro j u ts hj hren hlog
    rw [ha.timestamps]
    exact h.fresh j u ts (hsome _ _ hj) hren hlog
  · intro j u ts hj hren r hr t ht hlt
    obtain ⟨q, hq, hts, -, hrel⟩ := ha.source r hr
    rw [hts]
    rcases hrel with hrel | hrel
    · exact h.ahead j u ts (hsome _ _ hj) hren q hq t (hrel ▸ ht) hlt
    · have := h.held_lt j (by simp [hsome _ _ hj])
      rw [hrel, some.injEq] at ht
      change t < g.acquiredAt j at hlt
      omega

theorem LogInv.append (h : LogInv g)
    (hi : pendingTs (g.sys.pc i) = some (u, ts)) (hlog : g.logged i = false)
    (hren : g.renumbered i = false) (hpc : ∀ ts, g.sys.pc i ≠ .revCas ts) :
    LogInv (g.append i ts) := by
  have hfresh := h.fresh i u ts hi hren hlog
  refine { chron := ⟨?_, ?_⟩, acquired_lt := ?_, fresh := ?_, ahead := ?_, unlogged := ?_
           held_lt := fun j hj => (h.held_lt j hj).trans (Nat.lt_succ_self _)
           distinct := h.distinct }
  · simp only [Logging.append, map_append, map_cons, map_nil]
    exact nodup_append.mpr ⟨h.chron.nodup, nodup_singleton _, by
      intro a ha b hb
      rw [mem_singleton] at hb
      rintro rfl
      exact hfresh (hb ▸ ha)⟩
  · intro r hr r' hr' t ht hlt
    rcases mem_append.mp hr with hr | hr
    · rcases mem_append.mp hr' with hr' | hr'
      · exact h.chron.order r hr r' hr' t ht hlt
      · rw [mem_singleton] at hr'
        subst hr'
        exact h.ahead i u ts hi hren r hr t ht hlt
    · rw [mem_singleton] at hr
      subst hr
      cases ht
  · intro r hr
    rcases mem_append.mp hr with hr | hr
    · exact (h.acquired_lt r hr).trans (Nat.lt_succ_self _)
    · rw [mem_singleton] at hr
      subst hr
      exact (h.held_lt i (by simp [hi])).trans (Nat.lt_succ_self _)
  · intro j v ts' hj hrenj hlogj
    have hji : j ≠ i := by
      rintro rfl
      simp [Logging.append] at hlogj
    simp only [Logging.append, map_append, map_cons, map_nil, mem_append, mem_singleton, not_or]
    refine ⟨h.fresh j v ts' hj hrenj (by simpa [Logging.append, hji] using hlogj), ?_⟩
    rintro rfl
    exact hji (h.distinct j i v u ts' hj hi hrenj hren)
  · intro j v ts' hj hrenj r hr t ht hlt
    rcases mem_append.mp hr with hr | hr
    · exact h.ahead j v ts' hj hrenj r hr t ht hlt
    · rw [mem_singleton] at hr
      subst hr
      cases ht
  · intro j ts' hj
    have hji : j ≠ i := by
      rintro rfl
      exact hpc ts' hj
    simpa [Logging.append, hji] using h.unlogged j ts' hj

theorem LogLive.append (h : LogLive threadNum g)
    (hi : pendingTs (g.sys.pc i) = some (u, ts)) : LogLive threadNum (g.append i ts) where
  gate := h.gate
  calm := h.calm
  held := h.held
  original := h.original
  wal_lt r hr := by
    rcases mem_append.mp hr with hr | hr
    · exact h.wal_lt r hr
    · rw [mem_singleton] at hr
      subst hr
      exact (h.held i u ts hi).1

/-- A timestamp is handed out. Before `clear()` it is above everything; after, the
transaction counts as renumbered. -/
theorem LogInv.take (h : LogInv g) (hlive : g.cleared = false → LogLive threadNum g)
    (hp : pendingTs p = some (u, g.sys.mem.writeTs)) :
    LogInv { g with sys := g.sys.put i m p, clock := g.clock + 1
                    acquiredAt := update g.acquiredAt i g.clock
                    logged := update g.logged i false
                    renumbered := update g.renumbered i g.cleared } := by
  have hother : ∀ {j q}, j ≠ i → pendingTs ((g.sys.put i m p).pc j) = some q →
      pendingTs (g.sys.pc j) = some q := by
    intro j q hji hj
    rwa [put_pc_of_ne _ _ _ hji] at hj
  -- the other threads' timestamps are below the one handed out
  have hbelow : ∀ j v ts, j ≠ i → pendingTs (g.sys.pc j) = some (v, ts) → g.cleared = false →
      ts ≠ g.sys.mem.writeTs := fun j v ts _ hj hc => ((hlive hc).held j v ts hj).1.ne
  refine { chron := h.chron
           acquired_lt := fun r hr => (h.acquired_lt r hr).trans (Nat.lt_succ_self _)
           held_lt := ?_, fresh := ?_, ahead := ?_, distinct := ?_, unlogged := ?_ }
  · intro j hj
    by_cases hji : j = i
    · simp [hji]
    · rw [put_pc_of_ne _ _ _ hji] at hj
      simpa [hji] using (h.held_lt j hj).trans (Nat.lt_succ_self _)
  · intro j v ts hj hren hlog
    by_cases hji : j = i
    · subst hji
      simp only [put_pc_self, hp] at hj
      simp only [update_self] at hren
      obtain ⟨-, rfl⟩ := hj
      intro hmem
      obtain ⟨r, hr, hts⟩ := mem_map.mp hmem
      exact ((hlive hren).wal_lt r hr).ne hts
    · exact h.fresh j v ts (hother hji hj) (by simpa [hji] using hren) (by simpa [hji] using hlog)
  · intro j v ts hj hren r hr t ht hlt
    by_cases hji : j = i
    · subst hji
      simp only [put_pc_self, hp] at hj
      simp only [update_self] at hren
      obtain ⟨-, rfl⟩ := hj
      exact (hlive hren).wal_lt r hr
    · exact h.ahead j v ts (hother hji hj) (by simpa [hji] using hren) r hr t ht
        (by simpa [hji] using hlt)
  · intro j k v w ts hj hk hrenj hrenk
    by_cases hji : j = i <;> by_cases hki : k = i
    · rw [hji, hki]
    · subst hji
      simp only [put_pc_self, hp, some.injEq, Prod.mk.injEq] at hj
      exact absurd hj.2.symm (hbelow k w ts hki (hother hki hk) (by simpa using hrenj))
    · subst hki
      simp only [put_pc_self, hp, some.injEq, Prod.mk.injEq] at hk
      exact absurd hk.2.symm (hbelow j v ts hji (hother hji hj) (by simpa using hrenk))
    · exact h.distinct j k v w ts (hother hji hj) (hother hki hk) (by simpa [hji] using hrenj)
        (by simpa [hki] using hrenk)
  · intro j ts hj
    by_cases hji : j = i
    · simp [hji]
    · rw [put_pc_of_ne _ _ _ hji] at hj
      simpa [hji] using h.unlogged j ts hj

theorem exclusiveIn_of_pendingTs (h : pendingTs p = some (true, ts)) : exclusiveIn p = true := by
  cases p <;> simp_all [pendingTs, exclusiveIn]

theorem clearing_of_pendingTs {q : Bool × ℕ} (h : pendingTs p = some q) : clearing p = false := by
  cases p <;> simp_all [pendingTs, clearing]

theorem tick_clearing (h : tick threadNum m p = some (m', p')) (hp : p ≠ .clearWrite)
    (hc : clearing p = false) : clearing p' = false := by
  unfold tick at h
  split at h <;> simp only [some.injEq, reduceCtorEq] at h <;> try split at h
  all_goals obtain ⟨rfl, rfl⟩ := h
  all_goals simp_all [clearing]

theorem LogLive.take (h : LogLive threadNum g)
    (hgate : Gate threadNum (g.sys.put i m p)) (hw : m.writeTs = g.sys.mem.writeTs + 1)
    (hi : takes (g.sys.pc i) = true) (hp : pendingTs p = some (u, g.sys.mem.writeTs))
    (hc : g.cleared = false) : LogLive threadNum
      { g with sys := g.sys.put i m p, clock := g.clock + 1
               acquiredAt := update g.acquiredAt i g.clock
               logged := update g.logged i false
               renumbered := update g.renumbered i g.cleared } where
  gate := hgate
  calm j := by
    by_cases hji : j = i
    · subst hji
      simpa using clearing_of_pendingTs hp
    · simpa [put_pc, hji] using h.calm j
  wal_lt r hr := by
    rw [put_mem, hw]
    exact (h.wal_lt r hr).trans (Nat.lt_succ_self _)
  held j v ts hj := by
    rw [put_mem, hw]
    by_cases hji : j = i
    · subst hji
      simp only [put_pc_self, hp] at hj
      cases hj
      exact ⟨Nat.lt_succ_self _, fun _ => rfl⟩
    · rw [put_pc_of_ne _ _ _ hji] at hj
      refine ⟨(h.held j v ts hj).1.trans (Nat.lt_succ_self _), ?_⟩
      -- another update would have kept the gate closed
      rintro rfl
      have := exclusiveIn_of_pendingTs hj
      simp [h.gate.exclusiveIn_other hi hji] at this
  original j := by
    by_cases hji : j = i
    · simp [hji, hc]
    · simpa [hji] using h.original j

theorem LogLive.revert (h : LogLive threadNum g) (hinv : LogInv g)
    (hgate : Gate threadNum (g.sys.put i m p)) (hw : m.writeTs = ts)
    (hi : g.sys.pc i = .revCas ts) (hp : pendingTs p = none) (hc : clearing p = false) :
    LogLive threadNum { g with sys := g.sys.put i m p, clock := g.clock + 1 } := by
  have hpend : pendingTs (g.sys.pc i) = some (true, ts) := by rw [hi]; rfl
  have hlast := (h.held i true ts hpend).2 rfl
  refine { gate := hgate, original := h.original, calm := ?_, wal_lt := ?_, held := ?_ }
  · intro j
    by_cases hji : j = i
    · subst hji
      simpa using hc
    · simpa [put_pc, hji] using h.calm j
  · intro r hr
    have hfresh := hinv.fresh i true ts hpend (h.original i) (hinv.unlogged i ts hi)
    have hne : r.timestamp ≠ ts := fun he => hfresh (mem_map.mpr ⟨r, hr, he⟩)
    have := h.wal_lt r hr
    rw [put_mem]
    omega
  · intro j v ts' hj
    have hji : j ≠ i := by
      rintro rfl
      simp [hp] at hj
    rw [put_pc_of_ne _ _ _ hji] at hj
    have haway := h.gate.role_other (exclusiveIn_of_pendingTs hpend) hji
    generalize g.sys.pc j = q at hj haway
    cases q <;> simp_all [pendingTs, role]

theorem LogLive.pass (h : LogLive threadNum g) {s' : Sys n} (hgate : Gate threadNum s')
    (hw : s'.mem.writeTs = g.sys.mem.writeTs) (hc : ∀ j, clearing (s'.pc j) = false)
    (hpend : ∀ j, pendingTs (s'.pc j) = pendingTs (g.sys.pc j) ∨ pendingTs (s'.pc j) = none)
    (ha : Aged g.clock g.wal wal') :
    LogLive threadNum { g with sys := s', wal := wal', clock := g.clock + 1 } where
  gate := hgate
  calm := hc
  original := h.original
  wal_lt r hr := by
    obtain ⟨q, hq, hts, -, -⟩ := ha.source r hr
    rw [hts]
    exact hw ▸ h.wal_lt q hq
  held j v ts hj := by
    rcases hpend j with he | he
    · have := h.held j v ts (he ▸ hj)
      rwa [← hw] at this
    · simp [he] at hj

theorem put_pendingTs {s : Sys n} (h : pendingTs p = pendingTs (s.pc i) ∨ pendingTs p = none)
    (j : Fin n) : pendingTs ((s.put i m p).pc j) = pendingTs (s.pc j) ∨
      pendingTs ((s.put i m p).pc j) = none := by
  rw [put_pc]
  split_ifs with hj
  · rw [hj]
    exact h
  · exact .inl rfl

def LogGood (threadNum : ℕ) (g : Logging n) : Prop :=
  LogInv g ∧ (g.cleared = false → LogLive threadNum g)

theorem LogGood.call {c : Call} (h : LogGood threadNum g)
    (hc : call c (g.sys.pc i) = some p) (hrev : c = .revertUpdate → g.logged i = false) :
    LogGood threadNum (g.record i (.call c) (g.sys.put i g.sys.mem p)) := by
  obtain ⟨hpend, hrevCas⟩ := call_pendingTs hc
  refine ⟨h.1.pass (put_pendingTs hpend) ?_ (aged_refl _ _), fun hcl => ?_⟩
  · intro j ts hj
    rw [put_pc] at hj
    split_ifs at hj with hji
    · rw [hji]
      exact hrev (hrevCas ⟨ts, hj⟩)
    · exact h.1.unlogged j ts hj
  · have hlive := h.2 hcl
    refine hlive.pass (hlive.gate.call hc) rfl (fun j => ?_) (put_pendingTs hpend) (aged_refl _ _)
    exact (put_congr _ (call_role hc).2.2.1 j).trans (hlive.calm j)

theorem LogGood.tick (hn : n ≤ threadNum) (h : LogGood threadNum g)
    (ht : tick threadNum g.sys.mem (g.sys.pc i) = some (m, p))
    (hroom : takes (g.sys.pc i) = true → g.sys.mem.writeTs + 1 < 2 ^ 32) :
    LogGood threadNum (g.record i .tick (g.sys.put i m p)) := by
  -- until `clear()` has begun, the gate is in order
  have hgate : g.cleared = false → Gate threadNum (g.sys.put i m p) := by
    intro hcl
    have hlive := h.2 hcl
    refine hlive.gate.step (l := (i, .tick)) hn (fun hp => ?_) (by simp [VersionManager.step, ht])
    have := hlive.calm i
    simp [hp, clearing] at this
  have hrev : ∀ j ts, (g.sys.put i m p).pc j = .revCas ts → g.logged j = false := by
    intro j ts hj
    rw [put_pc] at hj
    split_ifs at hj with hji
    · exact absurd hj (tick_not_revCas ht)
    · exact h.1.unlogged j ts hj
  have hcalm : g.sys.pc i ≠ .clearWrite → g.cleared = false →
      ∀ j, clearing ((g.sys.put i m p).pc j) = false := by
    intro hne hcl j
    have hi := (h.2 hcl).calm i
    exact (put_congr _ ((tick_clearing ht hne hi).trans hi.symm) j).trans ((h.2 hcl).calm j)
  rcases tick_pendingTs ht with ⟨htk, hw, u, hp⟩ | ⟨htk, hpc, hp⟩ | ⟨htk, hne, ts, hpc, -, hw, hp⟩ |
      ⟨htk, hne, hw, hpend⟩
  · have hw' : m.writeTs = g.sys.mem.writeTs + 1 := hw.trans (Nat.mod_eq_of_lt (hroom htk))
    simp only [Logging.record, htk]
    exact ⟨h.1.take h.2 hp, fun hcl => (h.2 hcl).take (hgate hcl) hw' htk hp hcl⟩
  · simp only [Logging.record, hpc]
    exact ⟨h.1.pass (put_pendingTs (.inr hp)) hrev (aged_refl _ _), fun hcl => Bool.noConfusion hcl⟩
  · have hrec : g.record i .tick (g.sys.put i m p) =
        { g with sys := g.sys.put i m p, clock := g.clock + 1 } := by
      simp [Logging.record, takes, publishes, hpc]
    rw [hrec]
    refine ⟨h.1.pass (put_pendingTs (.inr hp)) hrev (aged_refl _ _), fun hcl => ?_⟩
    have hcp : clearing p = false := by simpa using hcalm hne hcl i
    exact (h.2 hcl).revert h.1 (hgate hcl) hw hpc hp hcp
  · simp only [Logging.record, htk, Bool.false_eq_true, if_false]
    split_ifs with hpub
    · exact ⟨h.1.pass (put_pendingTs hpend) hrev (aged_stamp i _ _), fun hcl =>
        (h.2 hcl).pass (hgate hcl) hw (hcalm hne hcl) (put_pendingTs hpend) (aged_stamp i _ _)⟩
    · exact ⟨h.1.pass (put_pendingTs hpend) hrev (aged_refl _ _), fun hcl =>
        (h.2 hcl).pass (hgate hcl) hw (hcalm hne hcl) (put_pendingTs hpend) (aged_refl _ _)⟩

theorem LogGood.step (hn : n ≤ threadNum) (h : LogGood threadNum g) (hok : faithfulLog g l)
    (hs : walStep threadNum g l = some g') : LogGood threadNum g' := by
  obtain ⟨i, a⟩ := l
  cases a with
  | append =>
    simp only [walStep] at hs
    split_ifs at hs with hlog
    have hren := hok.1 rfl
    split at hs <;> cases hs
    all_goals
      rename_i hpc
      have hpend := congrArg pendingTs hpc
      exact ⟨h.1.append hpend (by simpa using hlog) hren (by simp [hpc]),
        fun hcl => (h.2 hcl).append hpend⟩
  | act a =>
    simp only [walStep] at hs
    split_ifs at hs
    obtain ⟨s', hs', rfl⟩ := map_eq_some_iff.mp hs
    obtain ⟨c, p, rfl, hc, rfl⟩ | ⟨m, p, rfl, ht, rfl⟩ := step_cases hs'
    · refine h.call hc fun he => hok.2.1 ?_
      rw [he]
    · exact h.tick hn ht hok.2.2

theorem logGood_start (threadNum n ts : ℕ) : LogGood threadNum (loggingStart n ts) := by
  refine ⟨⟨⟨by simp [loggingStart], by simp [loggingStart]⟩, ?_, ?_, ?_, ?_, ?_, ?_⟩,
    fun _ => ⟨gate_start threadNum n ts, ?_, ?_, ?_, fun _ => rfl⟩⟩ <;>
    simp [loggingStart, start, pendingTs, clearing]

/-- In every run whose steps satisfy the guard, the log is in chronological order. -/
theorem wal_chronological (hn : n ≤ threadNum)
    (h : Reach LoggingInitial (walStep threadNum) faithfulLog g) : Chronological g.wal := by
  have hgood : LogGood threadNum g := by
    refine h.invariant (fun _ _ => trivial) ?_ ?_
    · rintro g ⟨ts, -, rfl⟩
      exact logGood_start threadNum n ts
    · intro g l g' _ hg hok hs
      exact hg.step hn hok hs
  exact hgood.1.chron

def acts (ls : List (Fin n × Act)) : List (Fin n × WalAct) := ls.map fun l => (l.1, .act l.2)

def insertCompact : List (Fin 1 × WalAct) :=
  acts (calls 0 .acquireInsert 2) ++ [(0, .append)] ++ acts (calls 0 .release 6) ++
  acts (calls 0 .acquireUpdate 3) ++ [(0, .append)] ++ acts (calls 0 .compactCommit 10)

theorem wal_chronological_insertCompact :
    ∃ g : Logging 1, (g.wal.map WalRecord.timestamp = [1, 2] ∧ g.cleared = true) ∧
      Chronological g.wal := by
  have hstart : Reach LoggingInitial (walStep 1) faithfulLog (loggingStart 1 0) :=
    .init ⟨0, by decide, rfl⟩
  obtain ⟨g, hreach, hg⟩ := hstart.exists_of_execute insertCompact
    (fun g => g.wal.map WalRecord.timestamp = [1, 2] ∧ g.cleared = true) (by decide +kernel)
  exact ⟨g, hg, wal_chronological le_rfl hreach⟩

/-- After the compaction the next insert transaction logs timestamp 1 again. -/
theorem wal_renumbered : ∃ g : Logging 1, Reach LoggingInitial (walStep 1) anyStep g ∧
      g.wal.map WalRecord.timestamp = [1, 2, 1] ∧
      ∃ r ∈ g.wal, ∃ r' ∈ g.wal, ∃ t, r.released = some t ∧ t < r'.acquired ∧
        r'.timestamp < r.timestamp := by
  have hstart : Reach LoggingInitial (walStep 1) anyStep (loggingStart 1 0) :=
    .init ⟨0, by decide, rfl⟩
  obtain ⟨g, hreach, hts, r, hr, r', hr', t, -, h⟩ := hstart.exists_of_execute
    (insertCompact ++ acts (calls 0 .acquireInsert 2) ++ [(0, .append)])
    (fun g => g.wal.map WalRecord.timestamp = [1, 2, 1] ∧
      ∃ r ∈ g.wal, ∃ r' ∈ g.wal, ∃ t ∈ range 50, r.released = some t ∧ t < r'.acquired ∧
        r'.timestamp < r.timestamp) (by decide +kernel)
  exact ⟨g, hreach, hts, r, hr, r', hr', t, h⟩

end Neug.VersionManager
