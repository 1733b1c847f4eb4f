import Neug.Transaction.Ledger

/-! The ledger over whole runs, `clear()` included. `CompactTransaction::Commit` reopens the
gate before `clear()` overwrites the counters; the ledger survives when nobody is caught
between the two. -/
namespace Neug.VersionManager
open Neug.Lib Option

def takes : Pc → Bool
  | .granted .insert | .updTake => true
  | _ => false

/-- Inside `clear()` after its first store. -/
def clearing : Pc → Bool
  | .clearRead | .clearPending | .clearBuf => true
  | _ => false

variable {n threadNum R C : ℕ} {g g' : Traced n} {s s' : Sys n} {i j : Fin n} {m m' : Shared}
  {p p' : Pc}

inductive Effect (g : Traced n) (i : Fin n) : Traced n → Prop where
  | quiet (m : Shared) (p : Pc) (hw : m.writeTs = g.sys.mem.writeTs)
      (hr : m.readTs = g.sys.mem.readTs) (hb : m.buf = g.sys.mem.buf)
      (hrole : role p = role (g.sys.pc i)) (hc : clearing p = true → clearing (g.sys.pc i) = true)
      (hi : g.sys.pc i ≠ .clearRead) :
      Effect g i { g with sys := g.sys.put i m p }
  | take (u : Bool) (p : Pc) (ht : takes (g.sys.pc i) = true)
      (hp : role p = .holds u g.sys.mem.writeTs) :
      Effect g i
        { g with
          sys := g.sys.put i { g.sys.mem with writeTs := wrap32 (g.sys.mem.writeTs + 1) } p
          acquired := g.acquired ++ [g.sys.mem.writeTs]
          handed := fun j => if j = i then g.sys.mem.writeTs else g.handed j
          num := fun j => if j = i then g.next else g.num j }
  | late (u : Bool) (ts : ℕ) (p : Pc) (hl : inLock (g.sys.pc i) = true)
      (hrole : role (g.sys.pc i) = .holds u ts) (hts : ts ≠ wrap32 (g.sys.mem.readTs + 1))
      (hp : role p = .late u ts) : Effect g i { g with sys := g.sys.put i g.sys.mem p }
  | publish (ts : ℕ) (p : Pc) (hl : inLock (g.sys.pc i) = true)
      (hrole : role (g.sys.pc i) = .holds true ts) (hts : ts = wrap32 (g.sys.mem.readTs + 1))
      (hp : role p = .publish ts) : Effect g i { g with sys := g.sys.put i g.sys.mem p }
  | enterScan (ts : ℕ) (p : Pc) (hl : inLock (g.sys.pc i) = true)
      (hrole : role (g.sys.pc i) = .holds false ts) (hts : ts = wrap32 (g.sys.mem.readTs + 1))
      (hp : role p = .scan ts) : Effect g i { g with sys := g.sys.put i g.sys.mem p }
  | scanHit (ts : ℕ) (p : Pc) (hl : inLock (g.sys.pc i) = true)
      (hrole : role (g.sys.pc i) = .scan ts) (hbit : g.sys.mem.buf (ringIndex (ts + 1)) = true)
      (hp : role p = .scan (wrap32 (ts + 1))) :
      Effect g i { g with sys := g.sys.put i (g.sys.mem.setBit (ringIndex (ts + 1)) false) p }
  | scanMiss (ts : ℕ) (p : Pc) (hl : inLock (g.sys.pc i) = true)
      (hrole : role (g.sys.pc i) = .scan ts) (hbit : g.sys.mem.buf (ringIndex (ts + 1)) = false)
      (hp : role p = .store ts) :
      Effect g i { g with sys := g.sys.put i (g.sys.mem.setBit (ringIndex (ts + 1)) false) p }
  | store (ts : ℕ) (p : Pc) (hl : inLock (g.sys.pc i) = true)
      (hrole : role (g.sys.pc i) = .store ts ∨ role (g.sys.pc i) = .publish ts)
      (hp : role p = .away) (hc : clearing p = false) :
      Effect g i { g with sys := g.sys.put i { g.sys.mem with readTs := ts } p,
                          released := insert (g.num i) g.released }
  | set (u : Bool) (ts : ℕ) (p : Pc) (hl : inLock (g.sys.pc i) = true)
      (hrole : role (g.sys.pc i) = .late u ts) (hp : role p = .away) (hc : clearing p = false) :
      Effect g i { g with sys := g.sys.put i (g.sys.mem.setBit (ringIndex ts) true) p,
                          released := insert (g.num i) g.released }
  | revert (ts : ℕ) (p : Pc) (hex : exclusiveIn (g.sys.pc i) = true)
      (hrole : role (g.sys.pc i) = .holds true ts)
      (hp : role p = .away) (hc : clearing p = false) :
      Effect g i { g with sys := g.sys.put i { g.sys.mem with writeTs := ts } p
                          acquired := g.acquired.dropLast }
  | clearWrite (hi : g.sys.pc i = .clearWrite) :
      Effect g i { g with sys := g.sys.put i { g.sys.mem with writeTs := 1 } .clearRead }
  | clearRead (hi : g.sys.pc i = .clearRead) :
      Effect g i { g with sys := g.sys.put i { g.sys.mem with readTs := 0 } .clearPending
                          base := 0, acquired := [], released := ∅ }
  | clearBuf (hi : g.sys.pc i = .clearBuf) :
      Effect g i { g with sys := g.sys.put i { g.sys.mem with buf := fun _ => false } .idle }

theorem call_role {c : Call} (h : call c p = some p') :
    role p' = role p ∧ inLock p' = inLock p ∧ clearing p' = clearing p ∧ p ≠ .clearRead := by
  cases c <;> cases p <;> simp_all [call] <;> subst p' <;> simp [role, inLock, clearing]

def quietAt : Pc → Bool
  | .granted .insert | .updTake | .insCheck _ | .insScan _ | .insStore _ | .insSet _ => false
  | .updCheck _ _ | .updStore _ _ | .updSet _ _ | .revCas _ => false
  | .clearWrite | .clearRead | .clearBuf => false
  | _ => true

theorem tick_quiet (hq : quietAt p = true) (h : tick threadNum m p = some (m', p')) :
    (m'.writeTs = m.writeTs ∧ m'.readTs = m.readTs ∧ m'.buf = m.buf) ∧ role p' = role p ∧
      (clearing p' = true → clearing p = true) ∧ p ≠ .clearRead := by
  unfold tick at h
  split at h <;> simp only [some.injEq, reduceCtorEq] at h <;> try split at h
  all_goals obtain ⟨rfl, rfl⟩ := h
  all_goals simp_all [quietAt, role, clearing]

theorem record_quiet (hq : quietAt (g.sys.pc i) = true) :
    g.record (i, .tick) s' = { g with sys := s' } := by
  unfold Traced.record
  split
  · rfl
  · split <;> simp_all [quietAt]

theorem effect_of_tick (ht : tick threadNum g.sys.mem (g.sys.pc i) = some (m, p)) :
    Effect g i (g.record (i, .tick) (g.sys.put i m p)) := by
  by_cases hq : quietAt (g.sys.pc i) = true
  · obtain ⟨⟨hw, hr, hb⟩, hrole, hc, hi⟩ := tick_quiet hq ht
    rw [record_quiet hq]
    exact .quiet m p hw hr hb hrole hc hi
  · cases hp : g.sys.pc i
    case revCas ts =>
      simp only [hp, tick] at ht
      simp only [Traced.record, hp, put_pc_self]
      split_ifs at ht with hw
      · cases ht
        exact .revert ts _ (by rw [hp]; rfl) (by rw [hp]; rfl) rfl rfl
      · cases ht
        exact .quiet _ _ rfl rfl rfl (by rw [hp]; rfl) (by simp [clearing]) (by simp [hp])
    case granted k =>
      cases k with
      | read => exact absurd (by rw [hp]; rfl) hq
      | insert =>
        obtain ⟨rfl, rfl⟩ := by simpa [hp] using ht
        simp only [Traced.record, hp]
        exact .take false _ (by rw [hp]; rfl) rfl
    all_goals first
      | exact absurd (by rw [hp]; rfl) hq
      | obtain ⟨rfl, rfl⟩ := by simpa [hp] using ht
        simp [Traced.record, hp]
    case updTake => exact .take true _ (by rw [hp]; rfl) rfl
    case insCheck ts =>
      split_ifs with hts
      · exact .enterScan ts _ (by rw [hp]; rfl) (by rw [hp]; rfl) hts rfl
      · exact .late false ts _ (by rw [hp]; rfl) (by rw [hp]; rfl) hts rfl
    case insScan ts =>
      split_ifs with hbit
      · exact .scanHit ts _ (by rw [hp]; rfl) (by rw [hp]; rfl) hbit rfl
      · exact .scanMiss ts _ (by rw [hp]; rfl) (by rw [hp]; rfl) (by simpa using hbit) rfl
    case insStore ts => exact .store ts _ (by rw [hp]; rfl) (.inl (by rw [hp]; rfl)) rfl rfl
    case insSet ts => exact .set false ts _ (by rw [hp]; rfl) (by rw [hp]; rfl) rfl rfl
    case updCheck c ts =>
      split_ifs with hts
      · exact .publish ts _ (by rw [hp]; rfl) (by rw [hp]; rfl) hts rfl
      · exact .late true ts _ (by rw [hp]; rfl) (by rw [hp]; rfl) hts rfl
    case updStore c ts => exact .store ts _ (by rw [hp]; rfl) (.inr (by rw [hp]; rfl)) rfl rfl
    case updSet c ts => exact .set true ts _ (by rw [hp]; rfl) (by rw [hp]; rfl) rfl rfl
    case clearWrite => exact .clearWrite hp
    case clearRead => exact .clearRead hp
    case clearBuf => exact .clearBuf hp

variable {ts : ℕ} {a : Act} {l : Fin n × Act}

theorem effect_of_step (h : tracedStep threadNum g l = some g') : Effect g l.1 g' := by
  obtain ⟨i, a⟩ := l
  obtain ⟨s', hs, rfl⟩ := map_eq_some_iff.mp h
  obtain ⟨c, p, rfl, hc, rfl⟩ | ⟨m, p, rfl, ht, rfl⟩ := step_cases hs
  · obtain ⟨hr, -, hcl, hi⟩ := call_role hc
    exact .quiet _ p rfl rfl rfl hr (fun h => hcl ▸ h) hi
  · exact effect_of_tick ht

theorem tick_lock (h : tick threadNum m p = some (m', p')) :
    (m'.lock = m.lock ∧ inLock p' = inLock p) ∨
      (m.lock = false ∧ m'.lock = true ∧ inLock p' = true) ∨
      (inLock p = true ∧ m'.lock = false ∧ inLock p' = false) := by
  unfold tick at h
  split at h <;> simp only [some.injEq, reduceCtorEq] at h <;> try split at h
  all_goals obtain ⟨rfl, rfl⟩ := h
  all_goals simp_all [inLock, Shared.setBit]

theorem Mutex.step (h : Mutex s) (hs : step threadNum s l = some s') : Mutex s' := by
  obtain ⟨i, a⟩ := l
  obtain ⟨c, p, rfl, hc, rfl⟩ | ⟨m, p, rfl, ht, rfl⟩ := step_cases hs
  · have hlock := (call_role hc).2.1
    constructor
    · simpa only [put_congr _ hlock, put_mem] using h.held
    · simpa only [put_congr _ hlock] using h.unique
  · rcases tick_lock ht with ⟨hm, hp⟩ | ⟨hfree, hm, hp⟩ | ⟨hi, hm, hp⟩
    · constructor
      · simpa only [put_congr _ hp, put_mem, hm] using h.held
      · simpa only [put_congr _ hp] using h.unique
    · -- the lock was free, so nobody was inside
      have hout : ∀ j, inLock (s.pc j) = false := by
        intro j
        by_contra hj
        have := h.held j (by simpa using hj)
        simp [hfree] at this
      have honly : ∀ j, inLock ((s.put i m p).pc j) = true → j = i := by
        intro j hj
        by_contra hji
        rw [put_pc_of_ne _ _ _ hji, hout j] at hj
        cases hj
      exact ⟨fun _ _ => hm, fun j k hj hk => (honly j hj).trans (honly k hk).symm⟩
    · -- the thread that unlocks was the only one inside
      have hnone : ∀ j, inLock ((s.put i m p).pc j) = false := by
        intro j
        rw [put_pc]
        split_ifs with hji
        · exact hp
        · by_contra hj
          exact hji (h.unique j i (by simpa using hj) hi)
      exact ⟨fun j hj => by simp [hnone j] at hj, fun j k hj _ => by simp [hnone j] at hj⟩

/-- At most `ring_buf_size - 1` timestamps stand between the two counters, so that one
more can be handed out. -/
def ringRoom (m : Shared) : Prop := (m.writeTs + 2 ^ 32 - m.readTs) % 2 ^ 32 ≤ ringBufSize

/-- The guard under which compaction hands over cleanly: nobody holds an insert or update
timestamp when `clear()` stores `write_ts_`, nobody owes anything when it stores
`pending_reqs_`, and no timestamp is handed out while it runs or while the ring is full. -/
def handover (threadNum : ℕ) (s : Sys n) (l : Fin n × Act) : Prop :=
  (s.pc l.1 = .clearWrite → ∀ j, role (s.pc j) = .away) ∧
  (s.pc l.1 = .clearPending → ∀ j, share threadNum (s.pc j) = 0) ∧
  (takes (s.pc l.1) = true → (∀ j, clearing (s.pc j) = false) ∧ ringRoom s.mem)

instance (m : Shared) : Decidable (ringRoom m) :=
  inferInstanceAs (Decidable (_ ≤ _))

instance (threadNum : ℕ) (s : Sys n) (l : Fin n × Act) : Decidable (handover threadNum s l) :=
  inferInstanceAs (Decidable ((_ → ∀ _, _) ∧ (_ → ∀ _, _) ∧ (_ → (∀ _, _) ∧ ringRoom _)))

/-- The invariant of runs with compaction. Between the first two stores of `clear()` the
counters do not belong together, and the ring is empty. -/
structure Tidy (threadNum : ℕ) (g : Traced n) : Prop where
  gate : Gate threadNum g.sys
  mutex : Mutex g.sys
  clearing : ∀ i, clearing (g.sys.pc i) = true →
    g.sys.mem.writeTs = 1 ∧ ∀ j, role (g.sys.pc j) = .away
  ledger : (∃ R C, Ledger R C g) ∨
    (∃ i, g.sys.pc i = .clearRead) ∧ ∀ k, g.sys.mem.buf k = false

theorem role_of_clearing (h : VersionManager.clearing p = true) : role p = .away := by
  cases p <;> simp_all [VersionManager.clearing, role]

theorem role_of_takes (h : takes p = true) : role p = .away := by
  cases p <;> simp_all [takes, role]

theorem Gate.exclusiveIn_other (hg : Gate threadNum s) (hi : takes (s.pc i) = true)
    (hij : j ≠ i) : exclusiveIn (s.pc j) = false := by
  by_contra hj
  have hj' : exclusiveIn (s.pc j) = true := by simpa using hj
  have hcases : sharedIn (s.pc i) = true ∨ exclusiveIn (s.pc i) = true := by
    generalize s.pc i = q at hi
    cases q <;> simp_all [takes, sharedIn, exclusiveIn]
  rcases hcases with hin | hex
  · exact hg.apart j i hj' hin
  · have hzero := hg.owner_eq_zero (owner_of_exclusiveIn hex) hij
    have hone := owner_of_exclusiveIn hj'
    omega

theorem Ledger.next_le (h : Ledger R C g) (hroom : ringRoom g.sys.mem) :
    g.next ≤ R + ringBufSize := by
  have hwin := h.window
  unfold ringRoom at hroom
  rw [h.write, h.read] at hroom
  unfold ringBufSize wrap32 at *
  omega

theorem Ledger.settled (h : Ledger R C g) (haway : ∀ j, role (g.sys.pc j) = .away) :
    g.next = R + 1 ∧ ∀ k, g.sys.mem.buf k = false := by
  have hnext : g.next = R + 1 := by
    by_contra hne
    have := h.read_lt
    obtain ⟨j, hj, -⟩ := h.covered (R + 1) (Nat.lt_succ_self R) (by omega) h.next_unreleased
    exact hj (haway j)
  refine ⟨hnext, fun k => ?_⟩
  by_contra hk
  obtain ⟨a, ha, hCa, -⟩ := (h.bits k).mp (by simpa using hk)
  have := h.released_lt a ha
  have := h.absorbed_le
  omega

theorem ledger_fresh (hw : g.sys.mem.writeTs = wrap32 (g.base + 1))
    (hr : g.sys.mem.readTs = wrap32 g.base) (hb : ∀ k, g.sys.mem.buf k = false)
    (haway : ∀ j, role (g.sys.pc j) = .away) (hacq : g.acquired = []) (hrel : g.released = ∅) :
    Ledger g.base g.base g := by
  have hnext : g.next = g.base + 1 := by simp [Traced.next, hacq]
  refine { write := hnext ▸ hw, read := hr, base_le := le_rfl, read_lt := by omega
           window := by omega, values := by simp [hacq], released_lt := by simp [hrel]
           released_le := fun a h1 h2 => by omega, next_unreleased := by simp [hrel]
           fits := fun j => by rw [haway j]; trivial, handed := fun j hj => absurd (haway j) hj
           distinct := fun j _ hj => absurd (haway j) hj, covered := fun a h1 h2 => by omega
           absorbed_le := le_rfl, absorbed := fun a h1 h2 => by omega
           bits := by simp [hb, hrel], scanning := .inl rfl }

theorem ledger_restart (hw : g.sys.mem.writeTs = 1) (haway : ∀ j, role (g.sys.pc j) = .away)
    (hb : ∀ k, g.sys.mem.buf k = false) (hp : role p = .away) :
    Ledger 0 0 { g with sys := g.sys.put i { g.sys.mem with readTs := 0 } p
                        base := 0, acquired := [], released := ∅ } := by
  refine ledger_fresh (g := { g with sys := _, base := 0, acquired := [], released := ∅ })
    hw rfl hb ?_ rfl rfl
  intro j
  rw [put_congr _ (hp.trans (haway i).symm), haway j]

theorem Ledger.late {u : Bool} (h : Ledger R C g) (hm : Mutex g.sys)
    (hl : inLock (g.sys.pc i) = true) (hrole : role (g.sys.pc i) = .holds u ts)
    (hne : g.num i ≠ R + 1) (hp : role p = .late u ts) :
    Ledger R C { g with sys := g.sys.put i g.sys.mem p } := by
  obtain ⟨hval, hR, hN, hnot, hu⟩ := h.fits_of hrole
  refine h.move rfl rfl (by simp [hp, hrole]) ?_ (fun j _ => h.fits j) h.absorbed_le h.absorbed
    h.bits (.inl (h.absorbed_eq hm hl (by simp [hrole]) (by simp [hrole])))
  rw [hp]
  exact ⟨hval, by omega, hN, hnot, hu⟩

theorem Ledger.toPublish (h : Ledger R C g) (hm : Mutex g.sys)
    (hl : inLock (g.sys.pc i) = true) (hrole : role (g.sys.pc i) = .holds true ts)
    (hnum : g.num i = R + 1) (hp : role p = .publish ts) :
    Ledger R C { g with sys := g.sys.put i g.sys.mem p } := by
  obtain ⟨hval, -, -, hnot, hu⟩ := h.fits_of hrole
  refine h.move rfl rfl (by simp [hp, hrole]) ?_ (fun j _ => h.fits j) h.absorbed_le h.absorbed
    h.bits (.inl (h.absorbed_eq hm hl (by simp [hrole]) (by simp [hrole])))
  rw [hp]
  exact ⟨hval, hnum, hu rfl, hnot⟩

/-- One step of the ledger, from a state where the counters belong together. -/
theorem Ledger.step (h : Ledger R C g) (hg : Gate threadNum g.sys) (hm : Mutex g.sys)
    (hcl : ∀ i, VersionManager.clearing (g.sys.pc i) = true →
      g.sys.mem.writeTs = 1 ∧ ∀ j, role (g.sys.pc j) = .away)
    (hok : handover threadNum g.sys (i, a)) (he : Effect g i g') :
    (∃ R C, Ledger R C g') ∨ (∃ i, g'.sys.pc i = .clearRead) ∧ ∀ k, g'.sys.mem.buf k = false := by
  cases he with
  | quiet m p hw hr hb hrole hc hi => exact .inl ⟨R, C, h.quiet hw hr hb hrole⟩
  | take u p ht hp =>
    exact .inl ⟨R, C, h.take (role_of_takes ht) (fun j hj => hg.exclusiveIn_other ht hj)
      (h.next_le (hok.2.2 ht).2) hp⟩
  | late u ts p hl hrole hts hp =>
    exact .inl ⟨R, C, h.late hm hl hrole ((h.num_eq hrole).not.mp hts) hp⟩
  | publish ts p hl hrole hts hp =>
    exact .inl ⟨R, C, h.toPublish hm hl hrole ((h.num_eq hrole).mp hts) hp⟩
  | enterScan ts p hl hrole hts hp =>
    exact .inl ⟨R, R + 1, h.enterScan hm hl hrole ((h.num_eq hrole).mp hts) hp⟩
  | scanHit ts p hl hrole hbit hp => exact .inl ⟨R, C + 1, h.scanHit hm hl hrole hbit hp⟩
  | scanMiss ts p hl hrole hbit hp => exact .inl ⟨R, C, h.scanMiss hrole hbit hp⟩
  | store ts p hl hrole hp hc =>
    rcases hrole with hrole | hrole
    · exact .inl ⟨C, C, h.insStore hm hl hrole hp⟩
    · exact .inl ⟨R + 1, R + 1, h.updStore hm hl hrole hp⟩
  | set u ts p hl hrole hp hc => exact .inl ⟨R, R, h.set hm hl hrole hp⟩
  | revert ts p hex hrole hp hc =>
    exact .inl ⟨R, C, h.revert hrole (fun j hj => hg.role_other hex hj) hp⟩
  | clearWrite hi => exact .inr ⟨⟨i, put_pc_self _ _ _ _⟩, (h.settled (hok.1 hi)).2⟩
  | clearRead hi =>
    obtain ⟨hw, haway⟩ := hcl i (by rw [hi]; rfl)
    exact .inl ⟨0, 0, ledger_restart hw haway (h.settled haway).2 rfl⟩
  | clearBuf hi =>
    obtain ⟨hw, haway⟩ := hcl i (by rw [hi]; rfl)
    have hbuf : (fun _ => false) = g.sys.mem.buf := funext fun k => ((h.settled haway).2 k).symm
    exact .inl ⟨R, C, h.quiet rfl rfl hbuf (by rw [hi]; rfl)⟩

/-- One step between the first two stores of `clear()`: nobody holds a timestamp and
nobody is given one. -/
theorem unread_step (hread : g.sys.pc j = .clearRead) (hb : ∀ k, g.sys.mem.buf k = false)
    (hw : g.sys.mem.writeTs = 1) (haway : ∀ k, role (g.sys.pc k) = .away)
    (hok : handover threadNum g.sys (i, a)) (he : Effect g i g') :
    (∃ R C, Ledger R C g') ∨ (∃ i, g'.sys.pc i = .clearRead) ∧ ∀ k, g'.sys.mem.buf k = false := by
  have hi := haway i
  cases he with
  | quiet m p hw' hr hb' hrole hc hne =>
    have hji : j ≠ i := by
      rintro rfl
      exact hne hread
    exact .inr ⟨⟨j, (put_pc_of_ne _ _ _ hji).trans hread⟩, fun k => (congrFun hb' k).trans (hb k)⟩
  | take u p ht hp =>
    have := (hok.2.2 ht).1 j
    simp [hread, clearing] at this
  | clearWrite hi => exact .inr ⟨⟨i, put_pc_self _ _ _ _⟩, hb⟩
  | clearRead hi => exact .inl ⟨0, 0, ledger_restart hw haway hb rfl⟩
  | clearBuf hi =>
    have hji : j ≠ i := by
      rintro rfl
      simp [hread] at hi
    exact .inr ⟨⟨j, (put_pc_of_ne _ _ _ hji).trans hread⟩, fun _ => rfl⟩
  | store ts p hl hrole hp hc => rcases hrole with hrole | hrole <;> simp [hrole] at hi
  | _ => simp_all

theorem not_clearing_put (h : ∀ i, clearing (s.pc i) = true →
      s.mem.writeTs = 1 ∧ ∀ j, role (s.pc j) = .away)
    (hi : role (s.pc i) ≠ .away) (hp : clearing p = false) (k : Fin n) :
    clearing ((s.put i m p).pc k) = false := by
  rw [put_pc]
  split_ifs with hk
  · exact hp
  · by_contra hc
    exact hi ((h k (by simpa using hc)).2 i)

theorem clearing_of_role (h : role p ≠ .away) : clearing p = false := by
  by_contra hc
  exact h (role_of_clearing (by simpa using hc))

theorem clearing_step (h : ∀ i, clearing (g.sys.pc i) = true →
      g.sys.mem.writeTs = 1 ∧ ∀ j, role (g.sys.pc j) = .away)
    (hok : handover threadNum g.sys (i, a)) (he : Effect g i g') :
    ∀ k, clearing (g'.sys.pc k) = true →
      g'.sys.mem.writeTs = 1 ∧ ∀ j, role (g'.sys.pc j) = .away := by
  -- a thread that held a timestamp rules out every thread inside `clear()`
  have hbusy : ∀ {m p}, role (g.sys.pc i) ≠ .away → clearing p = false → ∀ k,
      clearing ((g.sys.put i m p).pc k) = true → False := fun hi hp k hk => by
    rw [not_clearing_put h hi hp] at hk
    cases hk
  intro k hk
  cases he with
  | quiet m p hw hr hb hrole hc hne =>
    obtain ⟨k', hk'⟩ : ∃ k', clearing (g.sys.pc k') = true := by
      simp only [put_pc] at hk
      split_ifs at hk
      · exact ⟨i, hc hk⟩
      · exact ⟨k, hk⟩
    exact ⟨hw.trans (h k' hk').1, fun j => (put_congr _ hrole j).trans ((h k' hk').2 j)⟩
  | take u p ht hp =>
    have hfree := (hok.2.2 ht).1
    simp only [put_pc] at hk
    split_ifs at hk
    · rw [clearing_of_role (by simp [hp])] at hk
      cases hk
    · simp [hfree k] at hk
  | late _ _ _ _ hrole _ hp | publish _ _ _ hrole _ hp | enterScan _ _ _ hrole _ hp
  | scanHit _ _ _ hrole _ hp | scanMiss _ _ _ hrole _ hp =>
    exact (hbusy (by simp [hrole]) (clearing_of_role (by simp [hp])) k hk).elim
  | store ts p hl hrole hp hc =>
    exact (hbusy (by rcases hrole with hrole | hrole <;> simp [hrole]) hc k hk).elim
  | set _ _ _ _ hrole _ hc | revert _ _ _ hrole _ hc =>
    exact (hbusy (by simp [hrole]) hc k hk).elim
  | clearWrite hi =>
    have haway := hok.1 hi
    exact ⟨rfl, fun j => (put_congr role (by rw [haway i]; rfl) j).trans (haway j)⟩
  | clearRead hi | clearBuf hi =>
    obtain ⟨hw, haway⟩ := h i (by rw [hi]; rfl)
    exact ⟨hw, fun j => (put_congr role (by rw [haway i]; rfl) j).trans (haway j)⟩

theorem Tidy.step (hn : n ≤ threadNum) (h : Tidy threadNum g)
    (hok : handover threadNum g.sys l) (hs : tracedStep threadNum g l = some g') :
    Tidy threadNum g' := by
  have he := effect_of_step hs
  obtain ⟨s', hs', rfl⟩ := map_eq_some_iff.mp hs
  have hgate : Gate threadNum (g.record l s').sys := by
    rw [record_sys]
    exact h.gate.step hn hok.2.1 hs'
  have hmutex : Mutex (g.record l s').sys := by
    rw [record_sys]
    exact h.mutex.step hs'
  refine ⟨hgate, hmutex, clearing_step h.clearing hok he, ?_⟩
  rcases h.ledger with ⟨R, C, hL⟩ | ⟨⟨j, hj⟩, hb⟩
  · exact hL.step h.gate h.mutex h.clearing hok he
  · obtain ⟨hw, haway⟩ := h.clearing j (by rw [hj]; rfl)
    exact unread_step hj hb hw haway hok he

theorem tidy_start (threadNum : ℕ) (hts : ts < 2 ^ 32) : Tidy threadNum (tracedStart n ts) where
  gate := gate_start threadNum n ts
  mutex := ⟨fun i hi => by simp [tracedStart, start, inLock] at hi,
    fun i j hi => by simp [tracedStart, start, inLock] at hi⟩
  clearing i hi := by simp [tracedStart, start, VersionManager.clearing] at hi
  ledger := .inl ⟨ts, ts, ledger_fresh (g := tracedStart n ts) rfl
    (Nat.mod_eq_of_lt hts).symm (fun _ => rfl) (fun _ => rfl) rfl rfl⟩

theorem tidy_of_reach (hn : n ≤ threadNum)
    (h : Reach TracedInitial (tracedStep threadNum) (fun g l => handover threadNum g.sys l) g) :
    Tidy threadNum g := by
  refine h.invariant (fun _ _ => trivial) ?_ ?_
  · rintro g ⟨ts, hts, rfl⟩
    exact tidy_start threadNum hts
  · intro g l g' _ hg hok hs
    exact hg.step hn hok hs

/-- Idle, or back from `release_update_timestamp` and inside `clear()`. -/
def atRest : Pc → Bool
  | .idle | .clearWrite | .clearRead | .clearPending | .clearBuf => true
  | _ => false

theorem atRest_zero (threadNum : ℕ) (h : atRest p = true) :
    share threadNum p = 0 ∧ owner p = 0 ∧ role p = .away := by
  cases p <;> simp_all [atRest, share, owner, role]

/-- Compaction hands over: when nobody holds or acquires a timestamp the counters are as
after an initialisation (`clear()` itself being between its first two stores apart), and two
threads never have the same timestamp at the same time. -/
theorem idle_settled (hn : n ≤ threadNum)
    (h : Reach TracedInitial (tracedStep threadNum) (fun g l => handover threadNum g.sys l) g) :
    ((∀ i, atRest (g.sys.pc i) = true) →
      g.sys.mem.pendingReqs = 0 ∧ g.sys.mem.pendingUpdateReqs = 0 ∧
      ((∀ i, g.sys.pc i ≠ .clearRead) → g.sys.mem.writeTs = wrap32 (g.sys.mem.readTs + 1))) ∧
    ∀ i j, role (g.sys.pc i) ≠ .away → role (g.sys.pc j) ≠ .away → i ≠ j →
      g.handed i ≠ g.handed j := by
  have ht := tidy_of_reach hn h
  constructor
  · intro hrest
    have hzero := fun i => atRest_zero threadNum (hrest i)
    refine ⟨?_, ?_, fun hread => ?_⟩
    · rw [ht.gate.pending]
      exact Finset.sum_eq_zero fun i _ => (hzero i).1
    · rw [ht.gate.flag]
      exact Finset.sum_eq_zero fun i _ => (hzero i).2.1
    · rcases ht.ledger with ⟨R, C, hL⟩ | ⟨⟨j, hj⟩, -⟩
      · have hnext := (hL.settled fun j => (hzero j).2.2).1
        rw [hL.write, hL.read, hnext, wrap32_wrap32_add]
      · exact absurd hj (hread j)
  · intro i j hi hj hij heq
    rcases ht.ledger with ⟨R, C, hL⟩ | ⟨⟨k, hk⟩, -⟩
    · rw [hL.handed i hi, hL.handed j hj] at heq
      obtain ⟨hiR, hiN, -⟩ := hL.num_lt hi
      obtain ⟨hjR, hjN, -⟩ := hL.num_lt hj
      have hwin := hL.window
      unfold ringBufSize at hwin
      exact hij (hL.distinct i j hi hj (wrap32_inj heq (by omega) (by omega)))
    · exact hi ((ht.clearing k (by rw [hk]; rfl)).2 i)

/-- Thread 0 compacts while thread 1 waits for an insert timestamp; both then insert. -/
def quietCompaction : List (Fin 2 × Act) :=
  calls 0 .acquireUpdate 3 ++ calls 0 .compactCommit 6 ++ calls 1 .acquireInsert 0 ++
  ticks 0 4 ++ ticks 1 2 ++ calls 0 .acquireInsert 2

theorem idle_settled_quietCompaction :
    ∃ g : Traced 2, (g.sys.pc 0 = .holdInsert 2 ∧ g.sys.pc 1 = .holdInsert 1) ∧
      g.handed 0 ≠ g.handed 1 := by
  have hstart : Reach TracedInitial (tracedStep 2) (fun g l => handover 2 g.sys l)
    (tracedStart 2 0) := .init ⟨0, by decide, rfl⟩
  obtain ⟨g, hreach, hpc⟩ := hstart.exists_of_execute quietCompaction
    (fun g => g.sys.pc 0 = .holdInsert 2 ∧ g.sys.pc 1 = .holdInsert 1) (by decide +kernel)
  exact ⟨g, hpc, (idle_settled le_rfl hreach).2 0 1 (by simp [hpc, role]) (by simp [hpc, role])
    (by decide)⟩

/-- Thread 1 enters between `release_update_timestamp` and `clear()` and leaves after. -/
def readerCaught : List (Fin 2 × Act) :=
  calls 0 .acquireUpdate 3 ++ calls 0 .compactCommit 6 ++ calls 1 .acquireRead 2 ++
  ticks 0 4 ++ calls 1 .release 1

/-- The same gap, entered by an insert transaction that is still active when the numbering
starts again. -/
def inserterCaught : List (Fin 2 × Act) :=
  calls 0 .acquireUpdate 3 ++ calls 0 .compactCommit 6 ++ calls 1 .acquireInsert 2 ++
  ticks 0 4 ++ calls 0 .acquireInsert 2 ++ calls 0 .release 6 ++ calls 0 .acquireInsert 2

theorem clear_overwrites_counters :
    (∃ s : Sys 2, Reach Initial (step 2) anyStep s ∧ (∀ i, s.pc i = .idle) ∧
      s.mem.pendingReqs = -1) ∧
    ∃ s : Sys 2, Reach Initial (step 2) anyStep s ∧ s.pc 0 = .holdInsert 2 ∧
      s.pc 1 = .holdInsert 2 := by
  have hstart : Reach Initial (step 2) anyStep (start 2 0) := .init ⟨0, by decide, rfl⟩
  constructor
  · exact hstart.exists_of_execute readerCaught _ (by decide +kernel)
  · exact hstart.exists_of_execute inserterCaught _ (by decide +kernel)

end Neug.VersionManager
