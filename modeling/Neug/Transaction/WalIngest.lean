import Neug.Transaction.WalRoundTrip

/-! Recovery. `NeugDB::ingestWals` replays the update records in the order of their timestamps
and asks `get_insert_wal` for every timestamp between them. -/
namespace Neug.Wal
open List

/-- The indices `IngestWalRange` asks for. -/
def ingestRange (first last : ℕ) : List ℕ :=
  if last ≤ first then [] else List.range' first (last - first)

/-- The loop of `ingestWals` from `from_ts` on, with the range behind the last update. Timestamps
are `uint32_t`. -/
def ingestLoop (lastTs : ℕ) : ℕ → List UpdateWalUnit → List ℕ
  | first, [] => if first ≤ lastTs then ingestRange first ((lastTs + 1) % 2 ^ 32) else []
  | first, u :: us =>
    (if first < u.timestamp then ingestRange first u.timestamp else []) ++
      ingestLoop lastTs ((u.timestamp + 1) % 2 ^ 32) us

/-- All indices passed to `get_insert_wal` when no record fails to be applied. -/
def ingestIndices (p : LocalWalParser) : List ℕ := ingestLoop p.lastTs 1 p.updateWals

/-- The largest timestamp, after which `from_ts` is zero. -/
def maxTs : ℕ := 2 ^ 32 - 1
def atMaxTs (us : List UpdateWalUnit) : ℕ := us.countP fun u => u.timestamp = maxTs

section

variable {lastTs first j : ℕ} {u : UpdateWalUnit} {us : List UpdateWalUnit}

theorem mem_ingestRange {last : ℕ} : j ∈ ingestRange first last ↔ first ≤ j ∧ j < last := by
  unfold ingestRange
  split_ifs with h
  · simp only [not_mem_nil, false_iff]
    omega
  · rw [mem_range'_1]
    omega

theorem mem_guarded {last : ℕ} :
    j ∈ (if first < last then ingestRange first last else []) ↔ first ≤ j ∧ j < last := by
  split_ifs with h
  · exact mem_ingestRange
  · simp only [not_mem_nil, false_iff]
    omega

/-- After `from_ts` has wrapped, every further update starts again from zero. -/
theorem mem_ingestLoop_wrapped (hmax : ∀ u ∈ us, u.timestamp = maxTs) :
    j ∈ ingestLoop maxTs 0 us ↔ us ≠ [] ∧ j < maxTs := by
  induction us with
  | nil =>
    have hwrap : (maxTs + 1) % 2 ^ 32 = 0 := by decide
    rw [ingestLoop, if_pos (Nat.zero_le _), hwrap, mem_ingestRange]
    simp
  | cons u us ih =>
    have hwrap : (maxTs + 1) % 2 ^ 32 = 0 := by decide
    rw [ingestLoop, mem_append, mem_guarded, hmax u mem_cons_self, hwrap,
      ih fun v hv => hmax v (mem_cons_of_mem _ hv)]
    simp only [zero_le, true_and, ne_eq, reduceCtorEq, not_false_eq_true]
    exact ⟨fun h => h.elim id And.right, .inl⟩

/-- Every timestamp up to the last one is asked for unless it is an update's. -/
theorem mem_ingestLoop (hfirst : 1 ≤ first) (hlast : lastTs < 2 ^ 32)
    (hsorted : us.Pairwise fun u v => u.timestamp ≤ v.timestamp)
    (hrange : ∀ u ∈ us, first ≤ u.timestamp + 1 ∧ u.timestamp ≤ lastTs)
    (hmax : lastTs = maxTs → ∃ u ∈ us, u.timestamp = maxTs) : j ∈ ingestLoop lastTs first us ↔
      (first ≤ j ∧ j ≤ lastTs ∧ ∀ u ∈ us, u.timestamp ≠ j) ∨ 1 < atMaxTs us ∧ j < maxTs := by
  induction us generalizing first with
  | nil =>
    have hne : lastTs ≠ maxTs := fun h => by simpa using hmax h
    have hwrap : (lastTs + 1) % 2 ^ 32 = lastTs + 1 := by
      unfold maxTs at hne
      exact Nat.mod_eq_of_lt (by omega)
    rw [ingestLoop, hwrap]
    split_ifs with hle
    · rw [mem_ingestRange]
      simp [atMaxTs]
    · simp only [not_mem_nil, atMaxTs, countP_nil, false_iff]
      omega
  | cons u us ih =>
    obtain ⟨hu, hsorted⟩ := pairwise_cons.mp hsorted
    have hhead := hrange u mem_cons_self
    rw [ingestLoop, mem_append, mem_guarded]
    by_cases htop : u.timestamp = maxTs
    · have hlastEq : lastTs = maxTs := by
        unfold maxTs at htop ⊢
        omega
      have hall : ∀ v ∈ us, v.timestamp = maxTs := by
        intro v hv
        have hle := hu v hv
        have hbound := (hrange v (mem_cons_of_mem _ hv)).2
        omega
      have hcount : atMaxTs (u :: us) = us.length + 1 := by
        apply countP_eq_length.mpr
        intro v hv
        rcases mem_cons.mp hv with rfl | hv
        · exact decide_eq_true htop
        · exact decide_eq_true (hall v hv)
      have hwrap : (maxTs + 1) % 2 ^ 32 = 0 := by decide
      rw [htop, hlastEq, hwrap, mem_ingestLoop_wrapped hall]
      have hnil : us ≠ [] ↔ 1 < us.length + 1 := by
        rw [← length_pos_iff]
        omega
      have hmiss : (∀ v ∈ u :: us, v.timestamp ≠ j) ↔ j ≠ maxTs := by
        simp only [forall_mem_cons, htop]
        refine ⟨fun h heq => h.1 heq.symm, fun h => ⟨Ne.symm h, ?_⟩⟩
        intro v hv
        rw [hall v hv]
        exact Ne.symm h
      rw [hnil, hmiss]
      omega
    · have hstep : (u.timestamp + 1) % 2 ^ 32 = u.timestamp + 1 := by
        unfold maxTs at htop
        exact Nat.mod_eq_of_lt (by omega)
      have hcount : atMaxTs (u :: us) = atMaxTs us := countP_cons_of_neg (by simpa using htop)
      have hrest : ∀ v ∈ us, u.timestamp + 1 ≤ v.timestamp + 1 ∧ v.timestamp ≤ lastTs :=
        fun v hv => ⟨Nat.succ_le_succ (hu v hv), (hrange v (mem_cons_of_mem _ hv)).2⟩
      have hmax' : lastTs = maxTs → ∃ v ∈ us, v.timestamp = maxTs := by
        intro h
        obtain ⟨v, hv, heq⟩ := hmax h
        rcases mem_cons.mp hv with rfl | hv
        · exact absurd heq htop
        · exact ⟨v, hv, heq⟩
      rw [hstep, ih (Nat.le_add_left 1 _) hsorted hrest hmax', hcount, forall_mem_cons, ← or_assoc]
      apply or_congr_left
      constructor
      · rintro (⟨hle, hlt⟩ | ⟨hle, hlast, hmiss⟩)
        · refine ⟨hle, by omega, by omega, ?_⟩
          intro v hv heq
          have hge := hu v hv
          omega
        · exact ⟨by omega, hlast, by omega, hmiss⟩
      · rintro ⟨hle, hlast, hne, hmiss⟩
        rcases lt_or_ge j u.timestamp with hlt | hge
        · exact .inl ⟨hle, hlt⟩
        · exact .inr ⟨by omega, hlast, hmiss⟩

end

section

variable {fuel ts w : ℕ} {type : Bool} {ptr : ℕ × ℕ} {p p' : LocalWalParser}
  {files : List WalFile} {logs : List (List Record)}

structure Bounded (p : LocalWalParser) : Prop where
  least : 4096 ≤ p.insertWals.length
  size : p.insertWals.length < 2 ^ 32
  le_lastTs : ∀ u ∈ p.updateWals, u.timestamp ≤ p.lastTs
  lastTs_lt : p.lastTs < 2 ^ 32
  attained : p.lastTs < p.insertWals.length ∨ ∃ u ∈ p.updateWals, u.timestamp = p.lastTs

theorem bounded_initial : Bounded LocalWalParser.initial where
  least := length_initial.ge
  size := length_initial.trans_lt (by norm_num)
  le_lastTs _ hu := absurd hu not_mem_nil
  lastTs_lt := by decide
  attained := .inl (lt_of_lt_of_eq (by decide) length_initial.symm)

theorem Bounded.enter_update (hp : Bounded p) (hts : ts < 2 ^ 32) (length : ℤ) : Bounded { p with
      updateWals := p.updateWals ++ [⟨ts, ptr, toSize length⟩], lastTs := max ts p.lastTs } := by
  refine ⟨hp.least, hp.size, ?_, max_lt hts hp.lastTs_lt, ?_⟩
  · intro u hu
    rcases mem_append.mp hu with hu | hu
    · exact (hp.le_lastTs u hu).trans (le_max_right _ _)
    · rw [mem_singleton.mp hu]
      exact le_max_left _ _
  · rcases le_total p.lastTs ts with hle | hle
    · exact .inr ⟨_, mem_append_right _ (mem_singleton_self _), (max_eq_left hle).symm⟩
    · simp only [max_eq_right hle]
      exact hp.attained.imp_right fun ⟨u, hu, heq⟩ => ⟨u, mem_append_left _ hu, heq⟩

theorem Bounded.enter (hp : Bounded p) (hts : ts < 2 ^ 32)
    (h : p.enter ts type (lengthField w) ptr = some p') : Bounded p' := by
  cases type with
  | true =>
    rw [LocalWalParser.enter, if_pos rfl, Option.some_inj] at h
    exact h ▸ hp.enter_update hts _
  | false =>
    rw [LocalWalParser.enter, if_neg (by decide), putInsert_eq hp.size hts] at h
    split_ifs at h with hnext
    · rw [Option.map_some, Option.some_inj] at h
      subst h
      have hleast := hp.least
      have hsize := hp.size
      have hlen : ((p.insertWals ++ replicate (ts + 1 - p.insertWals.length)
          WalContentUnit.empty).set ts ⟨some ptr, toSize (lengthField w)⟩).length =
          max p.insertWals.length (ts + 1) := by
        rw [length_set, length_append, length_replicate]
        omega
      constructor
      · rw [hlen]
        omega
      · rw [hlen]
        omega
      · exact fun u hu => (hp.le_lastTs u hu).trans (le_max_right _ _)
      · exact max_lt hts hp.lastTs_lt
      · rw [hlen]
        rcases le_total p.lastTs ts with hle | hle
        · exact .inl (by simp only [max_eq_left hle]; omega)
        · simp only [max_eq_right hle]
          exact hp.attained.imp_left fun hlt => by omega
    · cases h

theorem bounded_open (h : LocalWalParser.openWals fuel files = some p) :
    Bounded p ∧ p.updateWals.Pairwise fun u v => u.timestamp ≤ v.timestamp := by
  obtain ⟨q, hq, rfl⟩ := Option.map_eq_some_iff.mp h
  have hbound : Bounded q := parseFiles_invariant
    (fun _ _ _ _ _ _ hp hts _ henter => hp.enter hts henter) bounded_initial hq
  refine ⟨⟨hbound.least, hbound.size, ?_, hbound.lastTs_lt, ?_⟩, sortUpdates_sorted q⟩
  · exact fun u hu => hbound.le_lastTs u (mem_sortUpdates.mp hu)
  · exact hbound.attained.imp_right fun ⟨u, hu, heq⟩ => ⟨u, mem_sortUpdates.mpr hu, heq⟩

/-- The timestamps from the size of `insert_wal_list_` to the last one are all updates', and
unless the list has its largest size, at most one update has the largest timestamp. -/
def GapFree (p : LocalWalParser) : Prop :=
  (∀ j, p.insertWals.length ≤ j → j ≤ p.lastTs → ∃ u ∈ p.updateWals, u.timestamp = j) ∧
    (1 < atMaxTs p.updateWals → maxTs ≤ p.insertWals.length)

theorem Bounded.mem_ingestIndices (hp : Bounded p)
    (hsorted : p.updateWals.Pairwise fun u v => u.timestamp ≤ v.timestamp) {j : ℕ} :
    j ∈ ingestIndices p ↔ (1 ≤ j ∧ j ≤ p.lastTs ∧ ∀ u ∈ p.updateWals, u.timestamp ≠ j) ∨
        1 < atMaxTs p.updateWals ∧ j < maxTs := by
  apply mem_ingestLoop le_rfl hp.lastTs_lt hsorted
  · exact fun u hu => ⟨Nat.le_add_left 1 _, hp.le_lastTs u hu⟩
  · intro hmax
    rcases hp.attained with hlt | ⟨u, hu, heq⟩
    · have hsize := hp.size
      unfold maxTs at hmax
      omega
    · exact ⟨u, hu, heq.trans hmax⟩

def afterCompaction (ts : ℕ) : LocalWalParser :=
  { LocalWalParser.initial with updateWals := [⟨ts, (0, 8), 0⟩], lastTs := ts }

theorem open_compaction (ts : ℕ) (pos : 1 ≤ ts) (bounded : ts < 2 ^ 32) :
    LocalWalParser.openWals 2 ([[compaction ts pos bounded]].map logFile) =
      some (afterCompaction ts) := by
  have hparse : LocalWalParser.parseFiles 2 0 ([[compaction ts pos bounded]].map logFile)
      LocalWalParser.initial = some (afterCompaction ts) := by
    rw [parseFiles_eq (by simp [compaction]) (by simp)]
    have hmax : max ts LocalWalParser.initial.lastTs = ts := max_zero ts
    change some { LocalWalParser.initial with
      updateWals := [⟨ts, (0, 8), 0⟩], lastTs := max ts LocalWalParser.initial.lastTs } = _
    rw [hmax, afterCompaction]
  rw [LocalWalParser.openWals, filter_eq_self.mpr, hparse]
  · rw [Option.map_some, LocalWalParser.sortUpdates, afterCompaction, mergeSort_singleton]
  · intro f hf
    obtain ⟨log, -, rfl⟩ := mem_map.mp hf
    exact decide_eq_true (logFile_size_ne_zero log)

end

end Neug.Wal
