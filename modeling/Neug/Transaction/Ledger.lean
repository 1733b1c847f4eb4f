import Neug.Transaction.UpdateExclusion

/-! The manager with history variables. Timestamps are numbered in the order they are
handed out; `uint32_t` keeps the remainder of the number. The ledger ties the counters
and the ring to the set of released numbers and to the number each thread holds. -/
namespace Neug.VersionManager
open Finset List

structure Traced (n : ℕ) where
  sys : Sys n
  base : ℕ
  /-- Timestamps handed out and not given back by a revert, in order. -/
  acquired : List ℕ
  /-- The timestamp last handed to a thread, and its number. -/
  handed : Fin n → ℕ
  num : Fin n → ℕ
  /-- The numbers whose release has been published in the ring or in `read_ts_`. -/
  released : Finset ℕ

variable {n : ℕ}

def Traced.next (g : Traced n) : ℕ := g.base + g.acquired.length + 1

/-- History after a step that leads to `s'`. The numbering restarts with `clear()`. -/
def Traced.record (g : Traced n) (l : Fin n × Act) (s' : Sys n) : Traced n :=
  match l.2 with
  | .call _ => { g with sys := s' }
  | .tick =>
    match g.sys.pc l.1 with
    | .granted .insert | .updTake =>
      { g with sys := s'
               acquired := g.acquired ++ [g.sys.mem.writeTs]
               handed := fun j => if j = l.1 then g.sys.mem.writeTs else g.handed j
               num := fun j => if j = l.1 then g.next else g.num j }
    | .insStore _ | .insSet _ | .updStore _ _ | .updSet _ _ =>
      { g with sys := s', released := insert (g.num l.1) g.released }
    | .revCas _ =>
      { g with sys := s'
               acquired := if s'.pc l.1 = .revAdd then g.acquired.dropLast else g.acquired }
    | .clearRead => { g with sys := s', base := 0, acquired := [], released := ∅ }
    | _ => { g with sys := s' }

def tracedStep (threadNum : ℕ) (g : Traced n) (l : Fin n × Act) : Option (Traced n) :=
  (step threadNum g.sys l).map (g.record l)

def tracedStart (n ts : ℕ) : Traced n :=
  ⟨start n ts, ts, [], fun _ => 0, fun _ => 0, ∅⟩

def TracedInitial (g : Traced n) : Prop := ∃ ts < 2 ^ 32, g = tracedStart n ts

inductive Role where
  | away
  | holds (update : Bool) (ts : ℕ)
  -- inside the critical section: not the successor of `read_ts_`, or the successor
  | late (update : Bool) (ts : ℕ)
  | publish (ts : ℕ)
  -- absorbing ring bits; the local `ts` runs ahead of the handed timestamp
  | scan (ts : ℕ)
  | store (ts : ℕ)
  deriving DecidableEq, Repr

def role : Pc → Role
  | .holdInsert ts | .insLock ts | .insCheck ts => .holds false ts
  | .holdUpdate ts | .updLock _ ts | .updCheck _ ts | .revCas ts => .holds true ts
  | .insSet ts => .late false ts
  | .updLog _ ts | .updSet _ ts => .late true ts
  | .updStore _ ts => .publish ts
  | .insScan ts => .scan ts
  | .insStore ts => .store ts
  | _ => .away

/-- The places between `lock_.lock()` and `lock_.unlock()`. -/
def inLock : Pc → Bool
  | .insCheck _ | .insScan _ | .insStore _ | .insSet _ | .insUnlock => true
  | .updCheck _ _ | .updStore _ _ | .updLog _ _ | .updSet _ _ | .updUnlock _ => true
  | _ => false

structure Mutex (s : Sys n) : Prop where
  held : ∀ i, inLock (s.pc i) = true → s.mem.lock = true
  unique : ∀ i j, inLock (s.pc i) = true → inLock (s.pc j) = true → i = j

/-- What the ledger knows of a thread with a given role whose timestamp has number `m`.
`R` is the number in `read_ts_` and `C` the last number whose ring bit was absorbed. -/
def Fits (R C next : ℕ) (released : Finset ℕ) : Role → ℕ → Prop
  | .away, _ => True
  | .holds update ts, m =>
    ts = wrap32 m ∧ R < m ∧ m < next ∧ m ∉ released ∧ (update = true → m + 1 = next)
  | .late update ts, m =>
    ts = wrap32 m ∧ R + 1 < m ∧ m < next ∧ m ∉ released ∧ (update = true → m + 1 = next)
  | .publish ts, m => ts = wrap32 m ∧ m = R + 1 ∧ m + 1 = next ∧ m ∉ released
  | .scan ts, m => ts = wrap32 C ∧ m = R + 1 ∧ R < C ∧ C < next ∧ m ∉ released
  | .store ts, m =>
    ts = wrap32 C ∧ m = R + 1 ∧ R < C ∧ C < next ∧ m ∉ released ∧ C + 1 ∉ released

/-- The ledger: `read_ts_` has number `R`, ring bits up to `C` have been absorbed. -/
structure Ledger (R C : ℕ) (g : Traced n) : Prop where
  write : g.sys.mem.writeTs = wrap32 g.next
  read : g.sys.mem.readTs = wrap32 R
  base_le : g.base ≤ R
  read_lt : R < g.next
  window : g.next ≤ R + ringBufSize + 1
  values : g.acquired = (List.range g.acquired.length).map fun k => wrap32 (g.base + 1 + k)
  released_lt : ∀ m ∈ g.released, m < g.next
  released_le : ∀ m, g.base < m → m ≤ R → m ∈ g.released
  next_unreleased : R + 1 ∉ g.released
  fits : ∀ i, Fits R C g.next g.released (role (g.sys.pc i)) (g.num i)
  handed : ∀ i, role (g.sys.pc i) ≠ .away → g.handed i = wrap32 (g.num i)
  distinct : ∀ i j, role (g.sys.pc i) ≠ .away → role (g.sys.pc j) ≠ .away →
    g.num i = g.num j → i = j
  covered : ∀ m, R < m → m < g.next → m ∉ g.released →
    ∃ i, role (g.sys.pc i) ≠ .away ∧ g.num i = m
  absorbed_le : R ≤ C
  absorbed : ∀ m, R + 1 < m → m ≤ C → m ∈ g.released
  bits : ∀ k, g.sys.mem.buf k = true ↔ ∃ m ∈ g.released, C < m ∧ ringIndex m = k
  scanning : C = R ∨ ∃ i, role (g.sys.pc i) = .scan (wrap32 C) ∨
    role (g.sys.pc i) = .store (wrap32 C)

variable {threadNum R C : ℕ} {g : Traced n} {s s' : Sys n} {i j : Fin n} {m : Shared} {p : Pc}

theorem record_sys (g : Traced n) (l : Fin n × Act) (s' : Sys n) : (g.record l s').sys = s' := by
  unfold Traced.record
  split
  · rfl
  · split <;> rfl

theorem wrap32_wrap32_add (a b : ℕ) : wrap32 (wrap32 a + b) = wrap32 (a + b) := by
  simp [wrap32]

theorem wrap32_inj {a b : ℕ} (h : wrap32 a = wrap32 b) (hab : a < b + 2 ^ 32)
    (hba : b < a + 2 ^ 32) : a = b := by
  unfold wrap32 at h
  omega

theorem ringIndex_wrap32_succ (a : ℕ) : ringIndex (wrap32 a + 1) = ringIndex (a + 1) := by
  unfold ringIndex wrap32 ringBufSize
  omega

theorem ringIndex_wrap32 (a : ℕ) : ringIndex (wrap32 a) = ringIndex a := by
  unfold ringIndex wrap32 ringBufSize
  omega

theorem ringIndex_inj {a b : ℕ} (h : ringIndex a = ringIndex b) (hab : a < b + ringBufSize)
    (hba : b < a + ringBufSize) : a = b := by
  unfold ringIndex ringBufSize at *
  omega

theorem inLock_of_role (h : role p ≠ .away) (h' : ∀ u ts, role p ≠ .holds u ts) :
    inLock p = true := by
  cases p <;> simp_all [role, inLock]

/-- Next to a thread in the critical section the others at most hold a timestamp. -/
theorem Mutex.role_other (hm : Mutex s) (hi : inLock (s.pc i) = true) (hij : j ≠ i) :
    role (s.pc j) = .away ∨ ∃ u ts, role (s.pc j) = .holds u ts := by
  by_contra! hj
  exact hij (hm.unique j i (inLock_of_role hj.1 hj.2) hi)

/-- Absorbing is over as soon as the thread in the critical section does something else. -/
theorem Ledger.absorbed_eq (h : Ledger R C g) (hm : Mutex g.sys)
    (hi : inLock (g.sys.pc i) = true) (hscan : ∀ ts, role (g.sys.pc i) ≠ .scan ts)
    (hstore : ∀ ts, role (g.sys.pc i) ≠ .store ts) : C = R := by
  rcases h.scanning with hC | ⟨j, hj⟩
  · exact hC
  · have hlock : inLock (g.sys.pc j) = true :=
      inLock_of_role (by rcases hj with hj | hj <;> simp [hj])
        (by rcases hj with hj | hj <;> simp [hj])
    obtain rfl := hm.unique i j hi hlock
    rcases hj with hj | hj
    · exact absurd hj (hscan _)
    · exact absurd hj (hstore _)

/-- What the ledger needs when a thread moves and no number is handed out or released:
the ring agrees with the new `C`, and the thread fits its new role. -/
theorem Ledger.move {C' : ℕ} (h : Ledger R C g) (hw : m.writeTs = g.sys.mem.writeTs)
    (hr : m.readTs = g.sys.mem.readTs) (haway : role p = .away ↔ role (g.sys.pc i) = .away)
    (hfit : Fits R C' g.next g.released (role p) (g.num i))
    (hother : ∀ j, j ≠ i → Fits R C' g.next g.released (role (g.sys.pc j)) (g.num j))
    (hle : R ≤ C') (habs : ∀ a, R + 1 < a → a ≤ C' → a ∈ g.released)
    (hbits : ∀ k, m.buf k = true ↔ ∃ a ∈ g.released, C' < a ∧ ringIndex a = k)
    (hscan : C' = R ∨ ∃ j, role ((g.sys.put i m p).pc j) = .scan (wrap32 C') ∨
      role ((g.sys.put i m p).pc j) = .store (wrap32 C')) :
    Ledger R C' { g with sys := g.sys.put i m p } := by
  have hrole : ∀ j, role ((g.sys.put i m p).pc j) = .away ↔ role (g.sys.pc j) = .away := by
    intro j
    rw [put_pc]
    split_ifs with hj
    · rw [hj, haway]
    · rfl
  refine { h with
    write := hw.trans h.write, read := hr.trans h.read, fits := ?_, absorbed_le := hle
    absorbed := habs, bits := hbits, scanning := hscan
    handed := fun j hj => h.handed j ((hrole j).not.mp hj)
    distinct := fun j k hj hk => h.distinct j k ((hrole j).not.mp hj) ((hrole k).not.mp hk)
    covered := ?_ }
  · intro j
    rw [put_pc]
    split_ifs with hj
    · rw [hj]
      exact hfit
    · exact hother j hj
  · intro a hR hN ha
    obtain ⟨j, hj, hnum⟩ := h.covered a hR hN ha
    exact ⟨j, (hrole j).not.mpr hj, hnum⟩

theorem Ledger.fits_of {r : Role} (h : Ledger R C g) (hrole : role (g.sys.pc i) = r) :
    Fits R C g.next g.released r (g.num i) := hrole ▸ h.fits i

theorem Ledger.quiet (h : Ledger R C g) (hw : m.writeTs = g.sys.mem.writeTs)
    (hr : m.readTs = g.sys.mem.readTs) (hb : m.buf = g.sys.mem.buf)
    (hrole : role p = role (g.sys.pc i)) : Ledger R C { g with sys := g.sys.put i m p } := by
  refine h.move hw hr (by rw [hrole]) (by rw [hrole]; exact h.fits i) (fun j _ => h.fits j)
    h.absorbed_le h.absorbed (by rw [hb]; exact h.bits) ?_
  simpa only [put_congr _ hrole] using h.scanning

theorem Ledger.fits_other {C' : ℕ} (h : Ledger R C g) (hm : Mutex g.sys)
    (hi : inLock (g.sys.pc i) = true) (hij : j ≠ i) :
    Fits R C' g.next g.released (role (g.sys.pc j)) (g.num j) := by
  have hfit := h.fits j
  rcases hm.role_other hi hij with hr | ⟨u, ts, hr⟩ <;> rw [hr] at hfit ⊢ <;> exact hfit

variable {ts : ℕ} {u : Bool}

section

variable (h : Ledger R C g)
include h

theorem Ledger.num_eq (hrole : role (g.sys.pc i) = .holds u ts) :
    ts = wrap32 (g.sys.mem.readTs + 1) ↔ g.num i = R + 1 := by
  obtain ⟨hval, hlt, hnext, -, -⟩ := h.fits_of hrole
  have hwin := h.window
  rw [h.read, wrap32_wrap32_add, hval]
  refine ⟨fun he => wrap32_inj he ?_ ?_, fun he => by rw [he]⟩ <;>
    unfold ringBufSize at hwin <;> omega

/-- The number after `R` has no bit, since it has not been released. -/
theorem Ledger.exists_above {P : ℕ → Prop} :
    (∃ a ∈ g.released, R < a ∧ P a) ↔ ∃ a ∈ g.released, R + 1 < a ∧ P a := by
  constructor
  · rintro ⟨a, ha, hRa, hP⟩
    refine ⟨a, ha, lt_of_le_of_ne hRa ?_, hP⟩
    rintro rfl
    exact h.next_unreleased ha
  · rintro ⟨a, ha, hRa, hP⟩
    exact ⟨a, ha, by omega, hP⟩

/-- The thread found its timestamp next in line: its own number counts as absorbed
before any bit is read. -/
theorem Ledger.enterScan (hm : Mutex g.sys)
    (hi : inLock (g.sys.pc i) = true) (hrole : role (g.sys.pc i) = .holds false ts)
    (hnum : g.num i = R + 1) (hp : role p = .scan ts) :
    Ledger R (R + 1) { g with sys := g.sys.put i g.sys.mem p } := by
  obtain rfl := h.absorbed_eq hm hi (by simp [hrole]) (by simp [hrole])
  obtain ⟨hval, -, hnext, hnot, -⟩ := h.fits_of hrole
  refine h.move rfl rfl (by simp [hp, hrole]) ?_ (fun j hj => h.fits_other hm hi hj)
    (Nat.le_succ _) (fun a h1 h2 => by omega) ?_
    (.inr ⟨i, .inl (by rw [put_pc_self, hp, hval, hnum])⟩)
  · rw [hp]
    exact ⟨hnum ▸ hval, hnum, Nat.lt_succ_self _, hnum ▸ hnext, hnot⟩
  · intro k
    rw [h.bits k, h.exists_above]

theorem Ledger.bit_succ (hRC : R < C) :
    g.sys.mem.buf (ringIndex (C + 1)) = true ↔ C + 1 ∈ g.released := by
  rw [h.bits]
  constructor
  · rintro ⟨a, ha, hCa, hk⟩
    have hlt := h.released_lt a ha
    have hwin := h.window
    have hEq : a = C + 1 := ringIndex_inj hk (by omega) (by unfold ringBufSize; omega)
    exact hEq ▸ ha
  · intro ha
    exact ⟨C + 1, ha, Nat.lt_succ_self C, rfl⟩

theorem Ledger.scanHit (hm : Mutex g.sys)
    (hi : inLock (g.sys.pc i) = true) (hrole : role (g.sys.pc i) = .scan ts)
    (hbit : g.sys.mem.buf (ringIndex (ts + 1)) = true) (hp : role p = .scan (wrap32 (ts + 1))) :
    Ledger R (C + 1)
      { g with sys := g.sys.put i (g.sys.mem.setBit (ringIndex (ts + 1)) false) p } := by
  obtain ⟨rfl, hnum, hRC, hCN, hnot⟩ := h.fits_of hrole
  rw [ringIndex_wrap32_succ] at hbit ⊢
  rw [wrap32_wrap32_add] at hp
  have hmem : C + 1 ∈ g.released := (h.bit_succ hRC).mp hbit
  refine h.move rfl rfl (by simp [hp, hrole]) ?_ (fun j hj => h.fits_other hm hi hj)
    (by omega) ?_ ?_ (.inr ⟨i, .inl (by rw [put_pc_self, hp])⟩)
  · rw [hp]
    exact ⟨rfl, hnum, by omega, h.released_lt _ hmem, hnot⟩
  · intro a h1 h2
    rcases lt_or_ge C a with hCa | haC
    · rwa [show a = C + 1 by omega]
    · exact h.absorbed a h1 haC
  · intro k
    simp only [Shared.setBit]
    split_ifs with hk
    · subst hk
      simp only [false_iff, not_exists, not_and]
      intro a ha hCa he
      have hlt := h.released_lt a ha
      have hwin := h.window
      have := ringIndex_inj he (by omega) (by unfold ringBufSize; omega)
      omega
    · rw [h.bits k]
      constructor
      · rintro ⟨a, ha, hCa, he⟩
        refine ⟨a, ha, lt_of_le_of_ne hCa ?_, he⟩
        rintro rfl
        exact hk he.symm
      · rintro ⟨a, ha, hCa, he⟩
        exact ⟨a, ha, by omega, he⟩

theorem Ledger.scanMiss (hrole : role (g.sys.pc i) = .scan ts)
    (hbit : g.sys.mem.buf (ringIndex (ts + 1)) = false) (hp : role p = .store ts) : Ledger R C
      { g with sys := g.sys.put i (g.sys.mem.setBit (ringIndex (ts + 1)) false) p } := by
  obtain ⟨rfl, hnum, hRC, hCN, hnot⟩ := h.fits_of hrole
  have hbuf : (g.sys.mem.setBit (ringIndex (wrap32 C + 1)) false).buf = g.sys.mem.buf := by
    funext k
    simp only [Shared.setBit]
    split_ifs with hk
    · rw [hk, hbit]
    · rfl
  have hnext : C + 1 ∉ g.released := by
    rw [ringIndex_wrap32_succ] at hbit
    rw [← h.bit_succ hRC, hbit]
    decide
  refine h.move rfl rfl (by simp [hp, hrole]) ?_ (fun j _ => h.fits j) h.absorbed_le h.absorbed
    (by rw [hbuf]; exact h.bits) (.inr ⟨i, .inr (by rw [put_pc_self, hp])⟩)
  rw [hp]
  exact ⟨rfl, hnum, hRC, hCN, hnot, hnext⟩

end

/-- A thread whose number has been released holds none, so the rest of the ledger about
owners carries over from the threads that still hold one. -/
theorem put_role_ne_away {j : Fin n} (hp : role p = .away)
    (hj : role ((s.put i m p).pc j) ≠ .away) : j ≠ i ∧ role (s.pc j) ≠ .away := by
  rw [put_pc] at hj
  split_ifs at hj with hji
  · exact absurd hp hj
  · exact ⟨hji, hj⟩

section

variable (h : Ledger R C g) (hm : Mutex g.sys) (hi : inLock (g.sys.pc i) = true)
include h hm hi

/-- Publishing a release: the number joins the released ones, and `read_ts_` and the ring
agree with the result. -/
theorem Ledger.publish {R' : ℕ} (hown : role (g.sys.pc i) ≠ .away) (hp : role p = .away)
    (hw : m.writeTs = g.sys.mem.writeTs) (hr : m.readTs = wrap32 R') (hle : R ≤ R')
    (hnext : R' < g.next) (hnum : g.num i < g.next)
    (hrel : ∀ a, R < a → a ≤ R' → a ∈ insert (g.num i) g.released)
    (hstop : R' + 1 ∉ insert (g.num i) g.released)
    (hbits : ∀ k, m.buf k = true ↔ ∃ a ∈ insert (g.num i) g.released, R' < a ∧ ringIndex a = k) :
    Ledger R' R' { g with sys := g.sys.put i m p, released := insert (g.num i) g.released } := by
  have hwin := h.window
  refine { h with
    write := hw.trans h.write, read := hr, base_le := h.base_le.trans hle, read_lt := hnext
    window := by show g.next ≤ _; omega
    absorbed_le := le_rfl, absorbed := fun a _ _ => by omega, scanning := .inl rfl
    next_unreleased := hstop, bits := hbits
    released_lt := ?_, released_le := ?_, fits := ?_, handed := ?_, distinct := ?_
    covered := ?_ }
  · intro a ha
    rcases mem_insert.mp ha with rfl | ha
    · exact hnum
    · exact h.released_lt a ha
  · intro a hb ha
    rcases lt_or_ge R a with hRa | haR
    · exact hrel a hRa ha
    · exact mem_insert_of_mem (h.released_le a hb haR)
  · intro j
    rw [put_pc]
    split_ifs with hj
    · rw [hp]
      trivial
    · have hfit := h.fits j
      rcases hm.role_other hi hj with hr | ⟨u, ts, hr⟩ <;> rw [hr] at hfit ⊢
      · trivial
      · obtain ⟨hval, hR, hN, hnot, hu⟩ := hfit
        have hne : g.num j ≠ g.num i := fun he => hj (h.distinct j i (by simp [hr]) hown he)
        have hnot' : g.num j ∉ insert (g.num i) g.released := by simp [hne, hnot]
        have hR' : R' < g.num j := by
          by_contra hle
          exact hnot' (hrel _ hR (by omega))
        exact ⟨hval, hR', hN, hnot', hu⟩
  · exact fun j hj => h.handed j (put_role_ne_away hp hj).2
  · exact fun j k hj hk => h.distinct j k (put_role_ne_away hp hj).2 (put_role_ne_away hp hk).2
  · intro a hR hN ha
    obtain ⟨hne, hnot⟩ := not_or.mp (mem_insert.not.mp ha)
    obtain ⟨j, hj, hnumj⟩ := h.covered a (by omega) hN hnot
    have hji : j ≠ i := by
      rintro rfl
      exact hne hnumj.symm
    exact ⟨j, by rwa [put_pc_of_ne _ _ _ hji], hnumj⟩

theorem Ledger.advance {R' : ℕ} (hown : role (g.sys.pc i) ≠ .away)
    (hnum : g.num i = R + 1) (hp : role p = .away) (hlt : R < R') (hnext : R' < g.next)
    (hrel : ∀ a, R + 1 < a → a ≤ R' → a ∈ g.released) (hstop : R' + 1 ∉ g.released)
    (hbits : ∀ k, g.sys.mem.buf k = true ↔ ∃ a ∈ g.released, R' < a ∧ ringIndex a = k) :
    Ledger R' R' { g with sys := g.sys.put i { g.sys.mem with readTs := wrap32 R' } p,
                          released := insert (g.num i) g.released } := by
  refine h.publish hm hi hown hp rfl rfl hlt.le hnext (by omega) ?_ ?_ ?_
  · intro a hR ha
    rcases eq_or_lt_of_le (Nat.succ_le_of_lt hR) with he | hgt
    · exact mem_insert.mpr (.inl (by omega))
    · exact mem_insert_of_mem (hrel a hgt ha)
  · rw [mem_insert, not_or]
    exact ⟨by omega, hstop⟩
  · intro k
    rw [exists_mem_insert, or_iff_right (fun he => absurd he.1 (by omega))]
    exact hbits k

theorem Ledger.insStore (hrole : role (g.sys.pc i) = .store ts) (hp : role p = .away) :
    Ledger C C { g with sys := g.sys.put i { g.sys.mem with readTs := ts } p,
                        released := insert (g.num i) g.released } := by
  obtain ⟨rfl, hnum, hRC, hCN, -, hstop⟩ := h.fits_of hrole
  exact h.advance hm hi (by simp [hrole]) hnum hp hRC hCN h.absorbed hstop h.bits

/-- An update holds the last number, so nothing above it can have been released. -/
theorem Ledger.updStore (hrole : role (g.sys.pc i) = .publish ts) (hp : role p = .away) :
    Ledger (R + 1) (R + 1) { g with sys := g.sys.put i { g.sys.mem with readTs := ts } p,
                                    released := insert (g.num i) g.released } := by
  obtain rfl := h.absorbed_eq hm hi (by simp [hrole]) (by simp [hrole])
  obtain ⟨rfl, hnum, hlast, -⟩ := h.fits_of hrole
  have hstop : C + 1 + 1 ∉ g.released := fun ha => by
    have := h.released_lt _ ha
    omega
  rw [show wrap32 (g.num i) = wrap32 (C + 1) by rw [hnum]]
  refine h.advance hm hi (by simp [hrole]) hnum hp (Nat.lt_succ_self C) (by omega)
    (fun a h1 h2 => by omega) hstop ?_
  intro k
  rw [h.bits k, h.exists_above]

theorem Ledger.set (hrole : role (g.sys.pc i) = .late u ts) (hp : role p = .away) :
    Ledger R R { g with sys := g.sys.put i (g.sys.mem.setBit (ringIndex ts) true) p,
                        released := insert (g.num i) g.released } := by
  obtain rfl := h.absorbed_eq hm hi (by simp [hrole]) (by simp [hrole])
  obtain ⟨rfl, hlt, hnext, -, -⟩ := h.fits_of hrole
  refine h.publish hm hi (by simp [hrole]) hp rfl h.read le_rfl h.read_lt hnext
    (fun a h1 h2 => by omega) ?_ ?_
  · rw [mem_insert, not_or]
    exact ⟨by omega, h.next_unreleased⟩
  · intro k
    rw [exists_mem_insert]
    simp only [Shared.setBit, ringIndex_wrap32]
    split_ifs with hk
    · simp only [true_iff]
      exact .inl (by omega)
    · rw [h.bits k, or_iff_right (fun he => hk he.2.symm)]

end

theorem exclusiveIn_of_role
    (h : role p = .holds true ts ∨ role p = .late true ts ∨ role p = .publish ts) :
    exclusiveIn p = true := by
  cases p <;> simp_all [role, exclusiveIn]

/-- A thread outside an update transaction is not disturbed by a larger next number. -/
theorem Fits.mono_next {next next' a : ℕ} {released : Finset ℕ} (hle : next ≤ next')
    (hex : exclusiveIn p = false) (h : Fits R C next released (role p) a) :
    Fits R C next' released (role p) a := by
  cases hp : role p with
  | away => trivial
  | holds u ts =>
    rw [hp] at h
    obtain ⟨hval, hR, hN, hnot, -⟩ := h
    refine ⟨hval, hR, hN.trans_le hle, hnot, ?_⟩
    rintro rfl
    rw [exclusiveIn_of_role (.inl hp)] at hex
    cases hex
  | late u ts =>
    rw [hp] at h
    obtain ⟨hval, hR, hN, hnot, -⟩ := h
    refine ⟨hval, hR, hN.trans_le hle, hnot, ?_⟩
    rintro rfl
    rw [exclusiveIn_of_role (.inr (.inl hp))] at hex
    cases hex
  | publish ts =>
    rw [exclusiveIn_of_role (.inr (.inr hp))] at hex
    cases hex
  | scan ts | store ts =>
    rw [hp] at h
    obtain ⟨hval, hnum, hRC, hCN, hnot⟩ := h
    exact ⟨hval, hnum, hRC, hCN.trans_le hle, hnot⟩

theorem Ledger.num_lt (h : Ledger R C g) (hi : role (g.sys.pc i) ≠ .away) :
    R < g.num i ∧ g.num i < g.next ∧ g.num i ∉ g.released := by
  have hfit := h.fits i
  cases hp : role (g.sys.pc i) with
  | away => exact absurd hp hi
  | _ =>
    rw [hp] at hfit
    simp only [Fits] at hfit
    exact ⟨by omega, by omega, by tauto⟩

/-- The next timestamp is handed out. While an update holds one, nobody else can ask. -/
theorem Ledger.take (h : Ledger R C g) (hi : role (g.sys.pc i) = .away)
    (hex : ∀ j, j ≠ i → exclusiveIn (g.sys.pc j) = false) (hwin : g.next ≤ R + ringBufSize)
    (hp : role p = .holds u g.sys.mem.writeTs) : Ledger R C
      { g with sys := g.sys.put i { g.sys.mem with writeTs := wrap32 (g.sys.mem.writeTs + 1) } p
               acquired := g.acquired ++ [g.sys.mem.writeTs]
               handed := fun j => if j = i then g.sys.mem.writeTs else g.handed j
               num := fun j => if j = i then g.next else g.num j } := by
  have hnext : g.base + (g.acquired ++ [g.sys.mem.writeTs]).length + 1 = g.next + 1 := by
    simp [Traced.next, add_assoc]
  have hfresh : ∀ j, j ≠ i → role (g.sys.pc j) ≠ .away → g.num j ≠ g.next :=
    fun j _ hj => (h.num_lt hj).2.1.ne
  refine { h with
    write := ?_, read_lt := ?_, window := ?_, values := ?_, released_lt := ?_, fits := ?_
    handed := ?_, distinct := ?_, covered := ?_, scanning := ?_ }
  · show wrap32 (g.sys.mem.writeTs + 1) = wrap32 (g.base + _ + 1)
    rw [hnext, h.write, wrap32_wrap32_add]
  · show R < g.base + _ + 1
    rw [hnext]
    exact h.read_lt.trans (Nat.lt_succ_self _)
  · show g.base + _ + 1 ≤ _
    rw [hnext]
    omega
  · show g.acquired ++ [g.sys.mem.writeTs] = List.map _ (range (_ ++ [_]).length)
    rw [length_append, length_singleton, range_succ, map_append, ← h.values, h.write]
    simp only [Traced.next]
    congr 3
    omega
  · intro a ha
    show a < g.base + _ + 1
    rw [hnext]
    exact (h.released_lt a ha).trans (Nat.lt_succ_self _)
  · intro j
    show Fits R C (g.base + (g.acquired ++ [g.sys.mem.writeTs]).length + 1) g.released
      (role ((g.sys.put i _ p).pc j)) (if j = i then g.next else g.num j)
    rw [put_pc, hnext]
    split_ifs with hj
    · rw [hp]
      refine ⟨h.write, h.read_lt, Nat.lt_succ_self _, fun ha => ?_, fun _ => rfl⟩
      exact lt_irrefl _ (h.released_lt _ ha)
    · exact (h.fits j).mono_next (Nat.le_succ _) (hex j hj)
  · intro j hj
    simp only [put_pc] at hj ⊢
    split_ifs at hj ⊢ with hji
    · exact h.write
    · exact h.handed j hj
  · intro j k hj hk he
    simp only [put_pc] at hj hk he
    split_ifs at hj hk he with hji hki hki
    · rw [hji, hki]
    · exact absurd he.symm (hfresh k hki hk)
    · exact absurd he (hfresh j hji hj)
    · exact h.distinct j k hj hk he
  · intro a hR hN ha
    replace hN : a < g.next + 1 := by
      rw [← hnext]
      exact hN
    rcases lt_or_ge a g.next with hlt | hge
    · obtain ⟨j, hj, hnumj⟩ := h.covered a hR hlt ha
      have hji : j ≠ i := by
        rintro rfl
        exact hj hi
      exact ⟨j, by simpa [put_pc, hji] using hj, by simpa [hji] using hnumj⟩
    · exact ⟨i, by simp [hp], by simp; omega⟩
  · rcases h.scanning with hC | ⟨j, hj⟩
    · exact .inl hC
    · have hji : j ≠ i := by
        rintro rfl
        rcases hj with hj | hj <;> rw [hi] at hj <;> cases hj
      exact .inr ⟨j, by simpa [put_pc, hji] using hj⟩

theorem Gate.role_other (hg : Gate threadNum s) (hi : exclusiveIn (s.pc i) = true)
    (hij : j ≠ i) : role (s.pc j) = .away := by
  by_contra hj
  have hcases : sharedIn (s.pc j) = true ∨ exclusiveIn (s.pc j) = true := by
    generalize s.pc j = q at hj
    cases q <;> simp_all [role, sharedIn, exclusiveIn]
  rcases hcases with hin | hex
  · exact hg.apart i j hi hin
  · have hzero := hg.owner_eq_zero (owner_of_exclusiveIn hi) hij
    have hone := owner_of_exclusiveIn hex
    omega

theorem Ledger.revert (h : Ledger R C g) (hi : role (g.sys.pc i) = .holds true ts)
    (hother : ∀ j, j ≠ i → role (g.sys.pc j) = .away) (hp : role p = .away) :
    Ledger R C { g with sys := g.sys.put i { g.sys.mem with writeTs := ts } p
                        acquired := g.acquired.dropLast } := by
  obtain ⟨rfl, hR, hN, hnot, hlast⟩ := h.fits_of hi
  replace hlast := hlast rfl
  have hpos : g.acquired.length ≠ 0 := by
    intro h0
    have := h.base_le
    simp only [Traced.next] at hlast
    omega
  have hnext : g.base + g.acquired.dropLast.length + 1 = g.num i := by
    rw [length_dropLast]
    simp only [Traced.next] at hlast
    omega
  refine { h with
    write := ?_, read_lt := ?_, window := ?_, values := ?_, released_lt := ?_, fits := ?_
    handed := ?_, distinct := ?_, covered := ?_, scanning := ?_ }
  · show wrap32 (g.num i) = wrap32 (g.base + _ + 1)
    rw [hnext]
  · show R < g.base + _ + 1
    rw [hnext]
    exact hR
  · show g.base + _ + 1 ≤ _
    rw [hnext]
    have := h.window
    omega
  · show g.acquired.dropLast = List.map _ (range g.acquired.dropLast.length)
    nth_rewrite 1 [h.values]
    rw [length_dropLast, ← map_dropLast]
    congr 1
    obtain ⟨k, hk⟩ := Nat.exists_eq_succ_of_ne_zero hpos
    rw [hk, range_succ, dropLast_concat]
    rfl
  · intro a ha
    show a < g.base + _ + 1
    rw [hnext]
    have := h.released_lt a ha
    have hne : a ≠ g.num i := by
      rintro rfl
      exact hnot ha
    omega
  · intro j
    show Fits R C (g.base + g.acquired.dropLast.length + 1) g.released
      (role ((g.sys.put i _ p).pc j)) (g.num j)
    rw [put_pc]
    split_ifs with hj
    · rw [hp]
      trivial
    · rw [hother j hj]
      trivial
  · exact fun j hj => h.handed j (put_role_ne_away hp hj).2
  · exact fun j k hj hk => h.distinct j k (put_role_ne_away hp hj).2 (put_role_ne_away hp hk).2
  · intro a hRa hNa ha
    replace hNa : a < g.num i := by
      rw [← hnext]
      exact hNa
    obtain ⟨j, hj, hnumj⟩ := h.covered a hRa (by omega) ha
    have hji : j ≠ i := by
      rintro rfl
      omega
    exact ⟨j, by rwa [put_pc_of_ne _ _ _ hji], hnumj⟩
  · rcases h.scanning with hC | ⟨j, hj⟩
    · exact .inl hC
    · have hji : j ≠ i := by
        rintro rfl
        rcases hj with hj | hj <;> rw [hi] at hj <;> cases hj
      exact .inr ⟨j, by rwa [put_pc_of_ne _ _ _ hji]⟩

end Neug.VersionManager
