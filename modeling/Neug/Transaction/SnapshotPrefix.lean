import Neug.Transaction.Handover

/-! The snapshot a reader gets is a prefix: outside the critical section `read_ts_` is the
last timestamp up to which everything has been released, and the ring holds the releases
beyond it. -/
namespace Neug.VersionManager
open Neug.Lib Finset List

variable {n threadNum : ℕ} {g g' : Traced n} {i : Fin n} {m : Shared} {p : Pc} {w k top : ℕ}
  {l : Fin n × Act}

theorem tracedStep_sys (h : tracedStep threadNum g l = some g') :
    step threadNum g.sys l = some g'.sys := by
  obtain ⟨s', hs, rfl⟩ := Option.map_eq_some_iff.mp h
  rw [record_sys]
  exact hs

def ordinary (g : Traced n) (l : Fin n × Act) : Prop := noClear g.sys l ∧ ringRoom g.sys.mem

instance (g : Traced n) (l : Fin n × Act) : Decidable (ordinary g l) :=
  inferInstanceAs (Decidable (noClear g.sys l ∧ ringRoom g.sys.mem))

theorem clearFree_of_reach (threadNum : ℕ) {ok : Traced n → Fin n × Act → Prop}
    (hok : ∀ g l, ok g l → noClear g.sys l) (h : Reach TracedInitial (tracedStep threadNum) ok g) :
    ∀ j, clearFree (g.sys.pc j) = true := by
  refine h.invariant (J := fun g => ∀ j, clearFree (g.sys.pc j) = true)
    (fun _ _ => trivial) ?_ ?_
  · rintro g ⟨ts, -, rfl⟩ j
    rfl
  · intro g l g' _ hg hl hs
    exact clearFree_step hg (hok g l hl) (tracedStep_sys hs)

/-- A run without `clear()` satisfies the guard of the hand-over for want of occasion. -/
theorem handover_of_clearFree {s : Sys n}
    (hf : ∀ j, clearFree (s.pc j) = true) (hroom : ringRoom s.mem) : handover threadNum s l := by
  have hne : ∀ j q, clearFree q = false → s.pc j ≠ q := by
    rintro j q hq rfl
    simp [hf j] at hq
  refine ⟨fun hp => absurd hp (hne _ _ rfl), fun hp => absurd hp (hne _ _ rfl), fun _ => ⟨?_, hroom⟩⟩
  intro j
  have := hf j
  generalize s.pc j = q at this
  cases q <;> simp_all [clearFree, clearing]

theorem ledger_of_reach (hn : n ≤ threadNum)
    (h : Reach TracedInitial (tracedStep threadNum) ordinary g) :
    Mutex g.sys ∧ ∃ R C, Ledger R C g := by
  have hfree : ∀ g : Traced n, Reach TracedInitial (tracedStep threadNum) ordinary g →
      ∀ j, clearFree (g.sys.pc j) = true :=
    fun g => clearFree_of_reach threadNum fun _ _ hl => hl.1
  have ht := tidy_of_reach hn (h.mono hfree fun g l hf hl => handover_of_clearFree hf hl.2)
  refine ⟨ht.mutex, ht.ledger.resolve_right ?_⟩
  rintro ⟨⟨j, hj⟩, -⟩
  have := hfree g h j
  simp [hj, clearFree] at this

def outOfOrder : List (Fin 2 × Act) :=
  calls 0 .acquireInsert 2 ++ calls 1 .acquireInsert 2 ++ calls 1 .release 5

theorem reach_tracedStart (n threadNum : ℕ) (ok : Traced n → Fin n × Act → Prop) :
    Reach TracedInitial (tracedStep threadNum) ok (tracedStart n 0) := .init ⟨0, by decide, rfl⟩

def unreleased (g : Traced n) : Finset ℕ := Finset.Ioo g.base g.next \ g.released

def Role.isUpdate : Role → Bool
  | .holds u _ | .late u _ => u
  | .publish _ => true
  | _ => false

theorem exclusiveIn_of_isUpdate (h : (role p).isUpdate = true) : exclusiveIn p = true := by
  cases p <;> simp_all [role, Role.isUpdate, exclusiveIn]

/-- Every unreleased number is held by some thread, and an update holds the last one. -/
structure Covered (g : Traced n) : Prop where
  covered : ∀ m, g.base < m → m < g.next → m ∉ g.released →
    ∃ i, role (g.sys.pc i) ≠ .away ∧ g.num i = m
  last : ∀ i, (role (g.sys.pc i)).isUpdate = true → g.num i + 1 = g.next

theorem Covered.move (h : Covered g) (haway : role p = .away ↔ role (g.sys.pc i) = .away)
    (hup : (role p).isUpdate = (role (g.sys.pc i)).isUpdate) :
    Covered { g with sys := g.sys.put i m p } where
  covered a hb hN ha := by
    obtain ⟨j, hj, hnum⟩ := h.covered a hb hN ha
    refine ⟨j, ?_, hnum⟩
    rw [put_pc]
    split_ifs with hji
    · rwa [Ne, haway, ← hji]
    · exact hj
  last j hj := by
    rw [put_congr (fun q => (role q).isUpdate) hup] at hj
    exact h.last j hj

theorem Covered.publish (h : Covered g) (hp : role p = .away) :
    Covered { g with sys := g.sys.put i m p, released := insert (g.num i) g.released } where
  covered a hb hN ha := by
    obtain ⟨hne, hnot⟩ := not_or.mp (mem_insert.not.mp ha)
    obtain ⟨j, hj, hnum⟩ := h.covered a hb hN hnot
    have hji : j ≠ i := by
      rintro rfl
      exact hne hnum.symm
    exact ⟨j, by rwa [put_pc_of_ne _ _ _ hji], hnum⟩
  last j hj := by
    rw [put_pc] at hj
    split_ifs at hj with hji
    · simp [hp, Role.isUpdate] at hj
    · exact h.last j hj

theorem Covered.take {u : Bool} (h : Covered g)
    (hi : role (g.sys.pc i) = .away) (hex : ∀ j, j ≠ i → exclusiveIn (g.sys.pc j) = false)
    (hp : role p = .holds u g.sys.mem.writeTs) :
    Covered { g with sys := g.sys.put i m p
                     acquired := g.acquired ++ [g.sys.mem.writeTs]
                     handed := fun j => if j = i then g.sys.mem.writeTs else g.handed j
                     num := fun j => if j = i then g.next else g.num j } := by
  have hnext : g.base + (g.acquired ++ [g.sys.mem.writeTs]).length + 1 = g.next + 1 := by
    simp [Traced.next, add_assoc]
  refine ⟨fun a hb hN ha => ?_, fun j hj => ?_⟩
  · replace hN : a < g.next + 1 := hnext ▸ hN
    rcases lt_or_ge a g.next with hlt | hge
    · obtain ⟨j, hj, hnum⟩ := h.covered a hb hlt ha
      have hji : j ≠ i := by
        rintro rfl
        exact hj hi
      exact ⟨j, by simpa [put_pc, hji] using hj, by simpa [hji] using hnum⟩
    · exact ⟨i, by simp [hp], by simp; omega⟩
  · show (if j = i then g.next else g.num j) + 1 = g.base + _ + 1
    rw [hnext]
    simp only [put_pc] at hj
    split_ifs at hj ⊢ with hji
    · rfl
    · have := exclusiveIn_of_isUpdate hj
      simp [hex j hji] at this

theorem Covered.revert {ts : ℕ} (h : Covered g)
    (hi : role (g.sys.pc i) = .holds true ts) (hother : ∀ j, j ≠ i → role (g.sys.pc j) = .away)
    (hp : role p = .away) :
    Covered { g with sys := g.sys.put i m p, acquired := g.acquired.dropLast } := by
  have hlast := h.last i (by rw [hi]; rfl)
  refine ⟨fun a hb hN ha => ?_, fun j hj => ?_⟩
  · have hN' : a < g.base + g.acquired.dropLast.length + 1 := hN
    rw [length_dropLast] at hN'
    simp only [Traced.next] at hlast
    obtain ⟨j, hj, hnum⟩ := h.covered a hb (by simp only [Traced.next]; omega) ha
    have hji : j ≠ i := by
      rintro rfl
      change g.base < a at hb
      omega
    exact ⟨j, by rwa [put_pc_of_ne _ _ _ hji], hnum⟩
  · rw [put_pc] at hj
    split_ifs at hj with hji
    · simp [hp, Role.isUpdate] at hj
    · simp [hother j hji, Role.isUpdate] at hj

theorem Covered.step (h : Covered g) (hg : Gate threadNum g.sys)
    (hf : ∀ j, clearFree (g.sys.pc j) = true) (hs : tracedStep threadNum g l = some g') :
    Covered g' := by
  have hfree := hf l.1
  cases effect_of_step hs with
  | quiet m p hw hr hb hrole hc hi => exact h.move (by rw [hrole]) (by rw [hrole])
  | take u p ht hp =>
    exact h.take (role_of_takes ht) (fun j hj => hg.exclusiveIn_other ht hj) hp
  | late _ _ _ _ hrole _ hp | publish _ _ _ hrole _ hp | enterScan _ _ _ hrole _ hp
  | scanHit _ _ _ hrole _ hp | scanMiss _ _ _ hrole _ hp =>
    exact h.move (by simp [hp, hrole]) (by simp [hp, hrole, Role.isUpdate])
  | store _ _ _ _ hp _ | set _ _ _ _ _ hp _ => exact h.publish hp
  | revert ts p hex hrole hp hc => exact h.revert hrole (fun j hj => hg.role_other hex hj) hp
  | clearWrite hi | clearRead hi | clearBuf hi => simp [hi, clearFree] at hfree

/-- Runs without `clear()`, with nothing said about the ring. -/
def unbounded (g : Traced n) (l : Fin n × Act) : Prop := noClear g.sys l

instance (g : Traced n) (l : Fin n × Act) : Decidable (unbounded g l) :=
  inferInstanceAs (Decidable (noClear g.sys l))

/-- A thread holds at most one timestamp, so there are never more than `n` unreleased. -/
theorem unreleased_card_le (hn : n ≤ threadNum)
    (h : Reach TracedInitial (tracedStep threadNum) unbounded g) : (unreleased g).card ≤ n := by
  have hboth : Gate threadNum g.sys ∧ Covered g := by
    refine h.invariant
      (J := fun g => Gate threadNum g.sys ∧ Covered g)
      (fun g hg => clearFree_of_reach threadNum (fun _ _ hl => hl) hg) ?_ ?_
    · rintro g ⟨ts, -, rfl⟩
      refine ⟨gate_start threadNum n ts, fun a hb hN => ?_, fun j hj => ?_⟩
      · simp [tracedStart, Traced.next] at hb hN
        omega
      · simp [tracedStart, start, role, Role.isUpdate] at hj
    · rintro g l g' hf ⟨hg, hc⟩ - hs
      refine ⟨hg.step hn (fun hp => ?_) (tracedStep_sys hs), hc.step hg hf hs⟩
      have := hf l.1
      simp [hp, clearFree] at this
  have hsub : unreleased g ⊆ univ.image g.num := by
    intro a ha
    obtain ⟨ha, hnot⟩ := mem_sdiff.mp ha
    obtain ⟨hb, hN⟩ := mem_Ioo.mp ha
    obtain ⟨j, -, hnum⟩ := hboth.2.covered a hb hN hnot
    exact mem_image.mpr ⟨j, mem_univ j, hnum⟩
  calc (unreleased g).card ≤ (univ.image g.num).card := card_le_card hsub
    _ ≤ univ.card := card_image_le
    _ = n := by simp

/-- Thread 0 holds timestamp 1; thread 1 has released the timestamps from 2 below `w`. -/
structure Waiting (w : ℕ) (g : Traced 2) : Prop where
  write : g.sys.mem.writeTs = w
  read : g.sys.mem.readTs = 0
  pending : g.sys.mem.pendingReqs = 1
  lock : g.sys.mem.lock = false
  pc0 : g.sys.pc 0 = .holdInsert 1
  pc1 : g.sys.pc 1 = .idle
  num0 : g.num 0 = 1
  next : g.next = w
  released : g.released = Finset.Ico 2 w
  bits : ∀ m ∈ Finset.Ico 2 w, g.sys.mem.buf (ringIndex m) = true

/-- Thread 1 has acquired timestamp `w` and not released it yet. -/
structure Holding (w : ℕ) (g : Traced 2) : Prop where
  write : g.sys.mem.writeTs = w + 1
  read : g.sys.mem.readTs = 0
  pending : g.sys.mem.pendingReqs = 2
  lock : g.sys.mem.lock = false
  pc0 : g.sys.pc 0 = .holdInsert 1
  pc1 : g.sys.pc 1 = .holdInsert w
  num0 : g.num 0 = 1
  num1 : g.num 1 = w
  next : g.next = w + 1
  released : g.released = Finset.Ico 2 w
  bits : ∀ m ∈ Finset.Ico 2 w, g.sys.mem.buf (ringIndex m) = true

theorem Waiting.acquire {g : Traced 2} (h : Waiting w g) (hlt : w + 1 < 2 ^ 32) :
    ∃ g', execute (guarded unbounded (tracedStep 2)) (calls 1 .acquireInsert 2) g = some g' ∧
      Holding w g' := by
  have hs : wrap32 (w + 1) = w + 1 := Nat.mod_eq_of_lt hlt
  have hnext : g.base + g.acquired.length + 1 = w := h.next
  simp [calls, ticks, execute, guarded, unbounded, noClear, tracedStep, step, call, tick,
    Traced.record, h.pc1, h.read, h.pending, h.write, hs]
  refine { write := rfl, read := rfl, pending := rfl, lock := h.lock, pc0 := ?_
           pc1 := put_pc_self _ _ _ _, num0 := by simpa using h.num0, num1 := ?_
           next := ?_, released := h.released, bits := h.bits }
  · rw [put_pc_of_ne _ _ _ (by decide), h.pc0]
  · simpa [Traced.next] using hnext
  · simp [Traced.next]
    omega

theorem Holding.release {g : Traced 2} (h : Holding w g) (hw : 2 ≤ w) :
    ∃ g', execute (guarded unbounded (tracedStep 2)) (calls 1 .release 5) g = some g' ∧
      Waiting (w + 1) g' := by
  have hne : w ≠ wrap32 1 := by
    unfold wrap32
    omega
  simp [calls, ticks, execute, guarded, unbounded, noClear, tracedStep, step, call, tick,
    Traced.record, Shared.setBit, h.pc1, h.lock, h.read, h.pending, hne]
  refine { write := h.write, read := rfl, pending := rfl, lock := rfl, pc0 := ?_
           pc1 := put_pc_self _ _ _ _, num0 := h.num0, next := h.next, released := ?_, bits := ?_ }
  · rw [put_pc_of_ne _ _ _ (by decide), h.pc0]
  · simp [h.num1, h.released, insert_Ico_right_eq_Ico_add_one hw]
  · intro m hm
    have hm' : m = w ∨ m ∈ Finset.Ico 2 w := by
      simp only [mem_Ico] at hm ⊢
      omega
    rcases hm' with rfl | hm'
    · simp
    · simp [h.bits m hm']

theorem Waiting.round {g : Traced 2} (h : Waiting w g) (hw : 2 ≤ w) (hlt : w + 1 < 2 ^ 32) :
    ∃ g', execute (guarded unbounded (tracedStep 2))
      (calls 1 .acquireInsert 2 ++ calls 1 .release 5) g = some g' ∧ Waiting (w + 1) g' := by
  obtain ⟨g₁, hrun₁, h₁⟩ := h.acquire hlt
  obtain ⟨g₂, hrun₂, h₂⟩ := h₁.release hw
  refine ⟨g₂, ?_, h₂⟩
  rw [execute_append, hrun₁]
  exact hrun₂

theorem Waiting.reach {g : Traced 2} (hg : Reach TracedInitial (tracedStep 2) unbounded g)
    (h : Waiting 2 g) (hw : 2 ≤ w) (hlt : w < 2 ^ 32) :
    ∃ g', Reach TracedInitial (tracedStep 2) unbounded g' ∧ Waiting w g' := by
  induction w, hw using Nat.le_induction with
  | base => exact ⟨g, hg, h⟩
  | succ w hw ih =>
    obtain ⟨g₁, hg₁, h₁⟩ := ih (by omega)
    obtain ⟨g₂, hrun, h₂⟩ := h₁.round hw hlt
    exact ⟨g₂, hg₁.of_execute hrun, h₂⟩

theorem Waiting.start : ∃ g, Reach TracedInitial (tracedStep 2) unbounded g ∧ Waiting 2 g := by
  obtain ⟨g, hreach, ⟨hw, hr, hp, hl⟩, ⟨h0, h1⟩, hnum, hnext, hrel⟩ :=
    (reach_tracedStart 2 2 unbounded).exists_of_execute (calls 0 .acquireInsert 2) (fun g =>
      (g.sys.mem.writeTs = 2 ∧ g.sys.mem.readTs = 0 ∧ g.sys.mem.pendingReqs = 1 ∧
        g.sys.mem.lock = false) ∧ (g.sys.pc 0 = .holdInsert 1 ∧ g.sys.pc 1 = .idle) ∧
        g.num 0 = 1 ∧ g.next = 2 ∧ g.released = ∅) (by decide +kernel)
  exact ⟨g, hreach, hw, hr, hp, hl, h0, h1, hnum, hnext, by simpa using hrel, by simp⟩

/-- Thread 0 scans the ring and has come to `c`; from 2 on the bit of timestamp 2 is
spent. -/
structure Scanning (top c : ℕ) (g : Traced 2) : Prop where
  read : g.sys.mem.readTs = 0
  pc0 : g.sys.pc 0 = .insScan c
  num0 : g.num 0 = 1
  released : g.released = Finset.Ico 2 (top + 2)
  bits : ∀ m, c < m → m ≤ top → g.sys.mem.buf (ringIndex m) = true
  spent : 2 ≤ c → g.sys.mem.buf (ringIndex 2) = false

theorem Waiting.scan {g : Traced 2} (h : Waiting (top + 2) g) :
    ∃ g', execute (guarded unbounded (tracedStep 2)) (calls 0 .release 2) g = some g' ∧
      Scanning top 1 g' := by
  simp [calls, ticks, execute, guarded, unbounded, noClear, tracedStep, step, call, tick,
    Traced.record, h.pc0, h.lock, h.read]
  refine { read := rfl, pc0 := put_pc_self _ _ _ _, num0 := h.num0, released := h.released
           bits := ?_, spent := fun hc => by omega }
  intro m h1 h2
  exact h.bits m (mem_Ico.mpr ⟨h1, by omega⟩)

theorem Scanning.next {c : ℕ} {g : Traced 2} (h : Scanning top c g) (hc : c < top) (hc1 : 1 ≤ c)
    (htop : top ≤ ringBufSize + 1) :
    ∃ g', execute (guarded unbounded (tracedStep 2)) (ticks 0 1) g = some g' ∧
      Scanning top (c + 1) g' := by
  have hbit := h.bits (c + 1) (Nat.lt_succ_self c) (by omega)
  have hs : wrap32 (c + 1) = c + 1 := Nat.mod_eq_of_lt (by unfold ringBufSize at htop; omega)
  simp [ticks, execute, guarded, unbounded, noClear, tracedStep, step, tick,
    Traced.record, h.pc0, hbit, hs, Shared.setBit]
  refine { read := h.read, pc0 := put_pc_self _ _ _ _, num0 := h.num0, released := h.released
           bits := ?_, spent := ?_ }
  · intro m h1 h2
    have hne : ringIndex m ≠ ringIndex (c + 1) := fun he => by
      have := ringIndex_inj he (by omega) (by omega)
      omega
    simpa [hne] using h.bits m (by omega) h2
  · intro _
    rcases eq_or_lt_of_le hc1 with rfl | hlt
    · simp
    · simp [h.spent hlt]

theorem Scanning.reach {c : ℕ} {g : Traced 2}
    (hg : Reach TracedInitial (tracedStep 2) unbounded g) (h : Scanning top 1 g) (hc : 1 ≤ c)
    (hle : c ≤ top) (htop : top ≤ ringBufSize + 1) :
    ∃ g', Reach TracedInitial (tracedStep 2) unbounded g' ∧ Scanning top c g' := by
  induction c, hc using Nat.le_induction with
  | base => exact ⟨g, hg, h⟩
  | succ c hc ih =>
    obtain ⟨g₁, hg₁, h₁⟩ := ih (by omega)
    obtain ⟨g₂, hrun, h₂⟩ := h₁.next (by omega) hc htop
    exact ⟨g₂, hg₁.of_execute hrun, h₂⟩

theorem Scanning.finish {g : Traced 2} (h : Scanning top top g)
    (hidx : ringIndex (top + 1) = ringIndex 2) (htop : 2 ≤ top) :
    ∃ g', execute (guarded unbounded (tracedStep 2)) (ticks 0 3) g = some g' ∧
      g'.sys.mem.lock = false ∧ g'.sys.mem.readTs = top ∧
      g'.released = Finset.Ico 1 (top + 2) := by
  have hbit := h.spent htop
  simp [ticks, execute, guarded, unbounded, noClear, tracedStep, step, tick,
    Traced.record, h.pc0, hidx, hbit, h.num0, h.released]
  ext a
  simp only [mem_insert, mem_Ico]
  omega

/-- One thread that has acquired and released `k` timestamps in turn. -/
structure Alternating (k : ℕ) (g : Traced 1) : Prop where
  write : g.sys.mem.writeTs = wrap32 (k + 1)
  read : g.sys.mem.readTs = wrap32 k
  pending : g.sys.mem.pendingReqs = 0
  lock : g.sys.mem.lock = false
  pc0 : g.sys.pc 0 = .idle
  bits : ∀ j, g.sys.mem.buf j = false
  acquired : g.acquired = (List.range k).map fun j => wrap32 (j + 1)

/-- The thread has acquired the timestamp after the first `k`. -/
structure Taken (k : ℕ) (g : Traced 1) : Prop where
  write : g.sys.mem.writeTs = wrap32 (k + 2)
  read : g.sys.mem.readTs = wrap32 k
  pending : g.sys.mem.pendingReqs = 1
  lock : g.sys.mem.lock = false
  pc0 : g.sys.pc 0 = .holdInsert (wrap32 (k + 1))
  bits : ∀ j, g.sys.mem.buf j = false
  acquired : g.acquired = (List.range (k + 1)).map fun j => wrap32 (j + 1)

theorem Alternating.acquire {g : Traced 1} (h : Alternating k g) :
    ∃ g', execute (guarded unbounded (tracedStep 1)) (calls 0 .acquireInsert 2) g = some g' ∧
      Taken k g' := by
  simp [calls, ticks, execute, guarded, unbounded, noClear, tracedStep, step, call, tick,
    Traced.record, h.pc0, h.read, h.pending, h.write, wrap32_wrap32_add]
  exact { write := rfl, read := rfl, pending := rfl, lock := h.lock, pc0 := put_pc_self _ _ _ _
          bits := h.bits, acquired := by simp [h.acquired, range_succ] }

theorem Taken.release {g : Traced 1} (h : Taken k g) :
    ∃ g', execute (guarded unbounded (tracedStep 1)) (calls 0 .release 6) g = some g' ∧
      Alternating (k + 1) g' := by
  simp [calls, ticks, execute, guarded, unbounded, noClear, tracedStep, step, call, tick,
    Traced.record, Shared.setBit, h.pc0, h.lock, h.read, h.pending, h.bits,
    wrap32_wrap32_add]
  exact { write := h.write, read := rfl, pending := rfl, lock := rfl, pc0 := put_pc_self _ _ _ _
          bits := by simp, acquired := h.acquired }

theorem Alternating.round {g : Traced 1} (h : Alternating k g) :
    ∃ g', execute (guarded unbounded (tracedStep 1))
      (calls 0 .acquireInsert 2 ++ calls 0 .release 6) g = some g' ∧ Alternating (k + 1) g' := by
  obtain ⟨g₁, hrun₁, h₁⟩ := h.acquire
  obtain ⟨g₂, hrun₂, h₂⟩ := h₁.release
  refine ⟨g₂, ?_, h₂⟩
  rw [execute_append, hrun₁]
  exact hrun₂

theorem Alternating.reach (k : ℕ) :
    ∃ g', Reach TracedInitial (tracedStep 1) unbounded g' ∧ Alternating k g' := by
  induction k with
  | zero =>
    refine ⟨_, reach_tracedStart 1 1 unbounded, ?_⟩
    constructor <;> simp [tracedStart, start, wrap32]
  | succ k ih =>
    obtain ⟨g₁, hg₁, h₁⟩ := ih
    obtain ⟨g₂, hrun, h₂⟩ := h₁.round
    exact ⟨g₂, hg₁.of_execute hrun, h₂⟩

def fewUnreleased (g : Traced n) (l : Fin n × Act) : Prop :=
  noClear g.sys l ∧ (unreleased g).card < ringBufSize

theorem Reach.fewUnreleased (hn : n ≤ threadNum) (hsmall : n < ringBufSize)
    (h : Reach TracedInitial (tracedStep threadNum) unbounded g) :
    Reach TracedInitial (tracedStep threadNum) fewUnreleased g :=
  h.mono (fun _ hg => unreleased_card_le hn hg) fun _ _ hcard hl => ⟨hl, hcard.trans_lt hsmall⟩

/-- Thread 0 releases timestamp 1 and is inside the critical section, having absorbed the
bit of timestamp 2 but not yet stored `read_ts_`. -/
def midScan : List (Fin 2 × Act) := outOfOrder ++ calls 0 .release 3

end Neug.VersionManager
