import Neug.Transaction.WalParse

/-! The round trip of the write-ahead log: when `LocalWalParser::open` gives back what
`LocalWalWriter` instances have appended. -/
namespace Neug.Wal
open List Option

section

variable {l l' : List WalContentUnit} {ts : ℕ} {u : WalContentUnit} {ds es : List Placed}
  {d : Placed} {p q : LocalWalParser}

theorem toSize_natCast {n : ℕ} (hn : n < 2 ^ 64) : toSize (n : ℤ) = n := by
  unfold toSize
  omega

theorem putInsert_eq (hl : l.length < 2 ^ 32) (hts : ts < 2 ^ 32) :
    LocalWalParser.putInsert l ts u = if ts + 1 < 2 ^ 32 then
        some ((l ++ replicate (ts + 1 - l.length) WalContentUnit.empty).set ts u)
      else none := by
  unfold LocalWalParser.putInsert LocalWalParser.growFor resize
  by_cases hgrow : l.length ≤ ts
  · rw [if_pos hgrow]
    by_cases hwrap : ts + 1 < 2 ^ 32
    · rw [Nat.mod_eq_of_lt hwrap, take_of_length_le (by omega), if_pos hwrap, if_pos]
      rw [length_append, length_replicate]
      omega
    · have hzero : (ts + 1) % 2 ^ 32 = 0 := by omega
      rw [hzero, if_neg hwrap]
      simp
  · have hfit : ts + 1 - l.length = 0 := by omega
    rw [if_neg hgrow, if_pos (by omega), if_pos (by omega), hfit, replicate_zero, append_nil]

structure Describes (ds : List Placed) (p : LocalWalParser) : Prop where
  least : 4096 ≤ p.insertWals.length
  tight : p.insertWals.length = 4096 ∨
    ∃ d ∈ ds, d.1.type = false ∧ p.insertWals.length = d.1.timestamp + 1
  bound : p.insertWals.length < 2 ^ 32
  insert : ∀ d ∈ ds, d.1.type = false →
    p.insertWals[d.1.timestamp]? = some ⟨some d.2, d.1.payload.length⟩
  other : ∀ ts < p.insertWals.length, (∀ d ∈ ds, d.1.type = false → d.1.timestamp ≠ ts) →
    p.insertWals[ts]? = some .empty
  updates : p.updateWals =
    (ds.filter fun d => d.1.type).map fun d => ⟨d.1.timestamp, d.2, d.1.payload.length⟩
  le_lastTs : ∀ d ∈ ds, d.1.timestamp ≤ p.lastTs
  lastTs_attained : p.lastTs = 0 ∨ ∃ d ∈ ds, d.1.timestamp = p.lastTs

theorem length_initial : LocalWalParser.initial.insertWals.length = 4096 :=
  length_replicate

theorem describes_initial : Describes [] LocalWalParser.initial where
  least := length_initial.ge
  tight := .inl length_initial
  bound := length_initial.trans_lt (by norm_num)
  insert := by simp
  other ts hts _ := by
    rw [length_initial] at hts
    rw [LocalWalParser.initial, getElem?_replicate, if_pos hts]
  updates := rfl
  le_lastTs := by simp
  lastTs_attained := .inl rfl

theorem Describes.lt_length (h : Describes ds p) (hd : d ∈ ds) (htype : d.1.type = false) :
    d.1.timestamp < p.insertWals.length :=
  (List.getElem?_eq_some_iff.mp (h.insert d hd htype)).1

theorem Describes.le_max (h : Describes ds p) :
    ∀ e ∈ ds ++ [d], e.1.timestamp ≤ max d.1.timestamp p.lastTs := by
  intro e he
  rcases mem_append.mp he with he | he
  · exact (h.le_lastTs e he).trans (le_max_right _ _)
  · rw [mem_singleton.mp he]
    exact le_max_left _ _

theorem Describes.max_attained (h : Describes ds p) : max d.1.timestamp p.lastTs = 0 ∨
      ∃ e ∈ ds ++ [d], e.1.timestamp = max d.1.timestamp p.lastTs := by
  rcases le_total p.lastTs d.1.timestamp with hle | hle
  · exact .inr ⟨d, by simp, (max_eq_left hle).symm⟩
  · rw [max_eq_right hle]
    exact h.lastTs_attained.imp_right fun ⟨e, he, heq⟩ => ⟨e, mem_append_left _ he, heq⟩

theorem payload_lt (r : Record) : r.payload.length < 2 ^ 64 := by
  have h := r.accepted
  unfold headerSize maxWrite at h
  omega

theorem Describes.enter_update (h : Describes ds p) (htype : d.1.type = true) :
    ∃ q, p.enter d.1.timestamp d.1.type d.1.payload.length d.2 = some q ∧
      Describes (ds ++ [d]) q := by
  have hold : ∀ e ∈ ds ++ [d], e.1.type = false → e ∈ ds := by
    intro e he hfalse
    rcases mem_append.mp he with he | he
    · exact he
    · rw [mem_singleton.mp he, htype] at hfalse
      cases hfalse
  refine ⟨_, by rw [LocalWalParser.enter, if_pos htype], ?_⟩
  constructor
  · exact h.least
  · exact h.tight.imp_right fun ⟨e, he, hlen⟩ => ⟨e, mem_append_left _ he, hlen⟩
  · exact h.bound
  · exact fun e he hfalse => h.insert e (hold e he hfalse) hfalse
  · exact fun ts hts hne => h.other ts hts fun e he => hne e (mem_append_left _ he)
  · rw [filter_append, map_append, ← h.updates, toSize_natCast (payload_lt _)]
    simp only [filter_cons, htype, if_true, filter_nil, map_cons, map_nil]
  · exact h.le_max
  · exact h.max_attained

theorem Describes.enter_insert (h : Describes ds p) (htype : d.1.type = false)
    (hnew : ∀ e ∈ ds, e.1.timestamp ≠ d.1.timestamp) (hts : d.1.timestamp + 1 < 2 ^ 32) :
    ∃ q, p.enter d.1.timestamp d.1.type d.1.payload.length d.2 = some q ∧
      Describes (ds ++ [d]) q := by
  have hput := putInsert_eq (u := ⟨some d.2, toSize d.1.payload.length⟩) h.bound d.1.bounded
  rw [if_pos hts, toSize_natCast (payload_lt _)] at hput
  refine ⟨_, by rw [LocalWalParser.enter, htype, if_neg (by decide),
    toSize_natCast (payload_lt _), hput, map_some], ?_⟩
  have hlen : ((p.insertWals ++ replicate (d.1.timestamp + 1 - p.insertWals.length)
      WalContentUnit.empty).set d.1.timestamp ⟨some d.2, d.1.payload.length⟩).length =
      max p.insertWals.length (d.1.timestamp + 1) := by
    rw [length_set, length_append, length_replicate]
    omega
  have hleast := h.least
  have hbound := h.bound
  constructor
  · rw [hlen]
    omega
  · rw [hlen]
    rcases le_total (d.1.timestamp + 1) p.insertWals.length with hle | hle
    · rw [max_eq_left hle]
      exact h.tight.imp_right fun ⟨e, he, hlen⟩ => ⟨e, mem_append_left _ he, hlen⟩
    · rw [max_eq_right hle]
      exact .inr ⟨d, by simp, htype, rfl⟩
  · rw [hlen]
    omega
  · intro e he hfalse
    rcases mem_append.mp he with he | he
    · have hlt := h.lt_length he hfalse
      rw [getElem?_set_ne (hnew e he).symm, getElem?_append_left hlt]
      exact h.insert e he hfalse
    · rw [mem_singleton.mp he, getElem?_set_self]
      rw [length_append, length_replicate]
      omega
  · intro ts hlt hne
    rw [hlen] at hlt
    have hts' : d.1.timestamp ≠ ts := hne d (by simp) htype
    rw [getElem?_set_ne hts']
    rcases lt_or_ge ts p.insertWals.length with hin | hout
    · rw [getElem?_append_left hin]
      exact h.other ts hin fun e he => hne e (mem_append_left _ he)
    · rw [getElem?_append_right hout, getElem?_replicate, if_pos (by omega)]
  · rw [filter_append, map_append, ← h.updates]
    simp [htype]
  · exact h.le_max
  · exact h.max_attained

theorem Describes.enter_largest (h : Describes ds p) (htype : d.1.type = false)
    (hts : ¬d.1.timestamp + 1 < 2 ^ 32) :
    p.enter d.1.timestamp d.1.type d.1.payload.length d.2 = none := by
  rw [LocalWalParser.enter, htype, if_neg (by decide), putInsert_eq h.bound d.1.bounded,
    if_neg hts, map_none]

/-- Entering goes through exactly if no insert has the largest timestamp. -/
theorem Describes.enterAll (h : Describes ds p)
    (hnodup : ((ds ++ es).map fun d => d.1.timestamp).Nodup) :
    (∃ q, enterAll p es = some q ∧ Describes (ds ++ es) q) ∧
        (∀ d ∈ es, d.1.type = false → d.1.timestamp + 1 < 2 ^ 32) ∨
      enterAll p es = none ∧ ∃ d ∈ es, d.1.type = false ∧ ¬d.1.timestamp + 1 < 2 ^ 32 := by
  induction es generalizing ds p with
  | nil => exact .inl ⟨⟨p, rfl, by rwa [append_nil]⟩, by simp⟩
  | cons d es ih =>
    have hnew : ∀ e ∈ ds, e.1.timestamp ≠ d.1.timestamp := by
      intro e he heq
      rw [map_append, nodup_append] at hnodup
      exact hnodup.2.2 _ (mem_map_of_mem he) _ (mem_map_of_mem mem_cons_self) heq
    have hcons : Neug.Wal.enterAll p (d :: es) =
        (p.enter d.1.timestamp d.1.type d.1.payload.length d.2).bind fun p' =>
          Neug.Wal.enterAll p' es := rfl
    by_cases hbad : d.1.type = false ∧ ¬d.1.timestamp + 1 < 2 ^ 32
    · exact .inr ⟨by rw [hcons, h.enter_largest hbad.1 hbad.2, bind_none], d, mem_cons_self, hbad⟩
    · obtain ⟨p', hp', hdesc⟩ : ∃ p', p.enter d.1.timestamp d.1.type d.1.payload.length d.2 =
          some p' ∧ Describes (ds ++ [d]) p' := by
        cases htype : d.1.type with
        | true => simpa only [htype] using h.enter_update htype
        | false =>
          have hts : d.1.timestamp + 1 < 2 ^ 32 := by
            by_contra hge
            exact hbad ⟨htype, hge⟩
          simpa only [htype] using h.enter_insert htype hnew hts
      rw [hcons, hp', append_cons]
      rw [append_cons] at hnodup
      rcases ih hdesc hnodup with ⟨hq, hall⟩ | ⟨hnone, e, he, hlast⟩
      · refine .inl ⟨hq, ?_⟩
        intro e he htype
        rcases mem_cons.mp he with rfl | he
        · by_contra hge
          exact hbad ⟨htype, hge⟩
        · exact hall e he htype
      · exact .inr ⟨hnone, e, mem_cons_of_mem _ he, hlast⟩

end

section

variable {i : ℕ} {log : List Record} {logs : List (List Record)} {d : Placed}

theorem map_fst_placed (i offset : ℕ) (log : List Record) :
    (placed i offset log).map Prod.fst = log := by
  induction log generalizing offset with
  | nil => rfl
  | cons r log ih => rw [placed, map_cons, ih]

theorem map_fst_placedAll (i : ℕ) (logs : List (List Record)) :
    (placedAll i logs).map Prod.fst = logs.flatten := by
  induction logs generalizing i with
  | nil => rfl
  | cons log logs ih =>
    rw [placedAll, map_append, map_fst_placed, ih, flatten_cons]

theorem slice_placed {f : WalFile} {before : Bytes}
    (hw : f.written = before ++ log.flatMap Record.encode) (hd : d ∈ placed i before.length log) :
    d.2.1 = i ∧ f.slice d.2.2 d.1.payload.length = some d.1.payload := by
  induction log generalizing before with
  | nil => exact absurd hd (by simp [placed])
  | cons r log ih =>
    have hrest : f.written = (before ++ r.encode) ++ log.flatMap Record.encode := by
      rw [hw, flatMap_cons, append_assoc]
    rcases mem_cons.mp hd with rfl | hd
    · refine ⟨rfl, ?_⟩
      have hlen : before.length + headerSize = (before ++ Lib.leBytes 4 r.timestamp ++
          Lib.leBytes 4 (packWord r.type r.payload.length)).length := by
        simp [headerSize]
      have hparts : f.written = before ++ Lib.leBytes 4 r.timestamp ++
          Lib.leBytes 4 (packWord r.type r.payload.length) ++ r.payload ++
          log.flatMap Record.encode := by
        rw [hrest, Record.encode]
        simp
      rw [hlen]
      exact slice_append hparts
    · apply ih hrest
      rw [length_append, length_encode, ← add_assoc]
      exact hd

theorem slice_placedAll (hd : d ∈ placedAll i logs) : ∃ k log, logs[k]? = some log ∧ d.2.1 = i + k ∧
      (logFile log).slice d.2.2 d.1.payload.length = some d.1.payload := by
  induction logs generalizing i with
  | nil => exact absurd hd (by simp [placedAll])
  | cons log logs ih =>
    rcases mem_append.mp hd with hd | hd
    · have hw : (logFile log).written = [] ++ log.flatMap Record.encode := logFile_written log
      obtain ⟨hi, hslice⟩ := slice_placed hw hd
      exact ⟨0, log, rfl, hi, hslice⟩
    · obtain ⟨k, log', hk, hi, hslice⟩ := ih hd
      exact ⟨k + 1, log', hk, by omega, hslice⟩

theorem content_placedAll (hd : d ∈ placedAll 0 logs) :
    content (logs.map logFile) (some d.2) d.1.payload.length = some d.1.payload := by
  obtain ⟨k, log, hk, hi, hslice⟩ := slice_placedAll hd
  rw [zero_add] at hi
  rw [content, bind_some, hi, getElem?_map, hk, map_some, bind_some, hslice]

end

section

variable {fuel : ℕ} {logs : List (List Record)} {p q : LocalWalParser}

structure RoundTrip (logs : List (List Record)) (p : LocalWalParser) : Prop where
  insert : ∀ r ∈ logs.flatten, r.type = false →
    ∃ u, p.getInsertWal r.timestamp = some u ∧
      content (logs.map logFile) u.ptr u.size = some r.payload
  empty : ∀ ts ≤ p.lastTs, (∀ r ∈ logs.flatten, r.type = false → r.timestamp ≠ ts) →
    p.getInsertWal ts = some .empty
  updates : (p.updateWals.map fun u =>
      (u.timestamp, content (logs.map logFile) (some u.ptr) u.size)).Perm
    ((logs.flatten.filter Record.type).map fun r => (r.timestamp, some r.payload))
  sorted : p.updateWals.Pairwise fun u v => u.timestamp < v.timestamp
  le_lastTs : ∀ r ∈ logs.flatten, r.timestamp ≤ p.lastTs
  lastTs_attained : p.lastTs = 0 ∨ ∃ r ∈ logs.flatten, r.timestamp = p.lastTs

/-- The logs that can be read back: a length fits into its signed field of 31 bits, four bytes
are left behind the last record of every file, no insert has the largest timestamp, and an
update is numbered below the initial size of `insert_wal_list_` or below some insert. -/
structure Recoverable (logs : List (List Record)) : Prop where
  lengths : ∀ r ∈ logs.flatten, r.payload.length < 2 ^ 30
  terminated : ∀ log ∈ logs, Terminated (logFile log)
  inserts : ∀ r ∈ logs.flatten, r.type = false → r.timestamp + 1 < 2 ^ 32
  updates : ∀ r ∈ logs.flatten, r.type = true →
    r.timestamp < 4096 ∨ ∃ s ∈ logs.flatten, s.type = false ∧ r.timestamp < s.timestamp

def Sizes (p : LocalWalParser) : Prop :=
  (∀ u ∈ p.insertWals, u.size < 2 ^ 30 ∨ 2 ^ 31 ≤ u.size) ∧
    ∀ u ∈ p.updateWals, u.size < 2 ^ 30 ∨ 2 ^ 31 ≤ u.size

theorem toSize_lengthField {w : ℕ} (hw : w < 2 ^ 32) :
    toSize (lengthField w) < 2 ^ 30 ∨ 2 ^ 31 ≤ toSize (lengthField w) := by
  have h := lengthField_range hw
  unfold toSize
  omega

theorem mem_putInsert {l l' : List WalContentUnit} {ts : ℕ} {u v : WalContentUnit}
    (h : LocalWalParser.putInsert l ts u = some l') (hv : v ∈ l') : v = u ∨ v ∈ l ∨ v = .empty := by
  unfold LocalWalParser.putInsert at h
  split_ifs at h
  rw [← some_inj.mp h] at hv
  rcases mem_or_eq_of_mem_set hv with hv | rfl
  · unfold LocalWalParser.growFor resize at hv
    split_ifs at hv
    · rcases mem_append.mp hv with hv | hv
      · exact .inr (.inl (mem_of_mem_take hv))
      · exact .inr (.inr (eq_of_mem_replicate hv))
    · exact .inr (.inl hv)
  · exact .inl rfl

theorem sizes_enter {p' : LocalWalParser} {ts w : ℕ} {type : Bool} {ptr : ℕ × ℕ}
    (hp : Sizes p) (hw : w < 2 ^ 32) (h : p.enter ts type (lengthField w) ptr = some p') :
    Sizes p' := by
  cases type with
  | true =>
    rw [LocalWalParser.enter, if_pos rfl, some_inj] at h
    rw [← h]
    refine ⟨hp.1, ?_⟩
    intro u hu
    rcases mem_append.mp hu with hu | hu
    · exact hp.2 u hu
    · rw [mem_singleton.mp hu]
      exact toSize_lengthField hw
  | false =>
    obtain ⟨l, hl, rfl⟩ := map_eq_some_iff.mp h
    refine ⟨?_, hp.2⟩
    intro u hu
    rcases mem_putInsert hl hu with rfl | hu | rfl
    · exact toSize_lengthField hw
    · exact hp.1 u hu
    · exact .inl (by decide)

theorem sizes_initial : Sizes LocalWalParser.initial := by
  refine ⟨?_, fun _ hu => absurd hu not_mem_nil⟩
  intro u hu
  rw [eq_of_mem_replicate hu]
  exact .inl (by decide)

theorem length_content {files : List WalFile} {ptr : Option (ℕ × ℕ)} {size : ℕ} {bs : Bytes}
    (h : content files ptr size = some bs) : bs.length = size := by
  obtain ⟨x, -, h⟩ := bind_eq_some_iff.mp h
  obtain ⟨f, -, h⟩ := bind_eq_some_iff.mp h
  unfold WalFile.slice at h
  split_ifs at h
  rw [← some_inj.mp h, length_map, length_range]

theorem mem_sortUpdates {u : UpdateWalUnit} : u ∈ p.sortUpdates.updateWals ↔ u ∈ p.updateWals :=
  (mergeSort_perm _ _).mem_iff

theorem openWals_eq_some (h : LocalWalParser.openWals fuel (logs.map logFile) = some p) :
    ∃ q, LocalWalParser.parseFiles fuel 0 (logs.map logFile) LocalWalParser.initial = some q ∧
      p = q.sortUpdates := by
  rw [LocalWalParser.openWals, filter_eq_self.mpr] at h
  · obtain ⟨q, hq, rfl⟩ := map_eq_some_iff.mp h
    exact ⟨q, hq, rfl⟩
  · intro f hf
    obtain ⟨log, -, rfl⟩ := mem_map.mp hf
    exact decide_eq_true (logFile_size_ne_zero log)

theorem RoundTrip.lengths (h : RoundTrip logs p)
    (hopen : LocalWalParser.openWals fuel (logs.map logFile) = some p) :
    ∀ r ∈ logs.flatten, r.payload.length < 2 ^ 30 := by
  obtain ⟨q, hq, rfl⟩ := openWals_eq_some hopen
  have hsizes : Sizes q := parseFiles_invariant
    (fun _ _ _ _ _ _ hp _ hw henter => sizes_enter hp hw henter) sizes_initial hq
  intro r hr
  have haccepted := r.accepted
  unfold headerSize maxWrite at haccepted
  cases htype : r.type with
  | false =>
    obtain ⟨u, hu, hcontent⟩ := h.insert r hr htype
    have hlen := length_content hcontent
    have hsize := hsizes.1 u (mem_of_getElem? hu)
    omega
  | true =>
    have hmem := h.updates.mem_iff.mpr (mem_map_of_mem (mem_filter.mpr ⟨hr, htype⟩))
    obtain ⟨u, hu, heq⟩ := mem_map.mp hmem
    have hcontent : content (logs.map logFile) (some u.ptr) u.size = some r.payload :=
      (Prod.ext_iff.mp heq).2
    have hlen := length_content hcontent
    have hsize := hsizes.2 u (mem_sortUpdates.mp hu)
    omega

theorem map_timestamp_placedAll (i : ℕ) (logs : List (List Record)) :
    (placedAll i logs).map (fun d => d.1.timestamp) = logs.flatten.map Record.timestamp := by
  rw [← map_fst_placedAll i logs, List.map_map]
  rfl

theorem exists_placed {r : Record} (hr : r ∈ logs.flatten) : ∃ d ∈ placedAll 0 logs, d.1 = r := by
  rw [← map_fst_placedAll 0 logs] at hr
  exact mem_map.mp hr

theorem mem_flatten_of_placed {d : Placed} (hd : d ∈ placedAll 0 logs) : d.1 ∈ logs.flatten := by
  rw [← map_fst_placedAll 0 logs]
  exact mem_map_of_mem hd

theorem exists_fuel (logs : List (List Record)) (least : ℕ) :
    ∃ fuel, least ≤ fuel ∧ ∀ log ∈ logs, log.length < fuel := by
  refine ⟨max least (logs.flatten.length + 1), le_max_left _ _, ?_⟩
  intro log hlog
  have hle : log.length ≤ logs.flatten.length := (sublist_flatten_of_mem hlog).length_le
  exact lt_of_lt_of_le (Nat.lt_succ_of_le hle) (le_max_right _ _)

theorem describes_of_open (hsmall : ∀ r ∈ logs.flatten, r.payload.length < 2 ^ 30)
    (hnodup : (logs.flatten.map Record.timestamp).Nodup)
    (hopen : LocalWalParser.openWals fuel (logs.map logFile) = some p) :
    ∃ q, p = q.sortUpdates ∧ Describes (placedAll 0 logs) q ∧
      (∀ log ∈ logs, Terminated (logFile log)) ∧
      ∀ r ∈ logs.flatten, r.type = false → r.timestamp + 1 < 2 ^ 32 := by
  obtain ⟨q, hq, rfl⟩ := openWals_eq_some hopen
  obtain ⟨fuel', hle, hfuel⟩ := exists_fuel logs fuel
  have hparse := parseFiles_mono hle hq
  rw [parseFiles_eq hsmall hfuel] at hparse
  obtain ⟨q', hq', hend⟩ := bind_eq_some_iff.mp hparse
  split_ifs at hend with hterm
  rw [← map_timestamp_placedAll 0] at hnodup
  rcases describes_initial.enterAll hnodup with ⟨⟨q'', hq'', hdesc⟩, hall⟩ | ⟨hnone, -⟩
  · have heq : q'' = q := by
      rw [hq'', some_inj] at hq'
      exact hq'.trans (some_inj.mp hend)
    refine ⟨q, rfl, heq ▸ hdesc, hterm, ?_⟩
    intro r hr htype
    obtain ⟨d, hd, rfl⟩ := exists_placed hr
    exact hall d hd htype
  · rw [hnone] at hq'
    cases hq'

theorem exists_open (h : Recoverable logs) (hnodup : (logs.flatten.map Record.timestamp).Nodup) :
    ∃ fuel q, LocalWalParser.openWals fuel (logs.map logFile) = some q.sortUpdates ∧
      Describes (placedAll 0 logs) q := by
  obtain ⟨fuel, -, hfuel⟩ := exists_fuel logs 0
  rw [← map_timestamp_placedAll 0] at hnodup
  rcases describes_initial.enterAll hnodup with ⟨⟨q, hq, hdesc⟩, -⟩ | ⟨-, d, hd, htype, hlast⟩
  · refine ⟨fuel, q, ?_, hdesc⟩
    rw [LocalWalParser.openWals, filter_eq_self.mpr, parseFiles_eq h.lengths hfuel, hq,
      bind_some, if_pos h.terminated, map_some]
    intro f hf
    obtain ⟨log, -, rfl⟩ := mem_map.mp hf
    exact decide_eq_true (logFile_size_ne_zero log)
  · exact absurd (h.inserts d.1 (mem_flatten_of_placed hd) htype) hlast

theorem sortUpdates_sorted (q : LocalWalParser) :
    q.sortUpdates.updateWals.Pairwise fun u v => u.timestamp ≤ v.timestamp := by
  have htrans : ∀ a b c : UpdateWalUnit, decide (a.timestamp ≤ b.timestamp) = true →
      decide (b.timestamp ≤ c.timestamp) = true → decide (a.timestamp ≤ c.timestamp) = true := by
    simp only [decide_eq_true_eq]
    exact fun a b c => le_trans
  have htotal : ∀ a b : UpdateWalUnit, (decide (a.timestamp ≤ b.timestamp) ||
      decide (b.timestamp ≤ a.timestamp)) = true := by
    simp only [Bool.or_eq_true, decide_eq_true_eq]
    exact fun a b => le_total _ _
  exact (pairwise_mergeSort htrans htotal q.updateWals).imp of_decide_eq_true

theorem sortUpdates_strict (hnodup : (q.updateWals.map UpdateWalUnit.timestamp).Nodup) :
    q.sortUpdates.updateWals.Pairwise fun u v => u.timestamp < v.timestamp := by
  have hsorted : (q.sortUpdates.updateWals.map UpdateWalUnit.timestamp).Nodup :=
    ((mergeSort_perm _ _).map _).nodup_iff.mpr hnodup
  have hne : q.sortUpdates.updateWals.Pairwise fun u v => u.timestamp ≠ v.timestamp :=
    pairwise_map.mp hsorted
  exact ((sortUpdates_sorted q).and hne).imp fun h => lt_of_le_of_ne h.1 h.2

theorem Describes.nodup_updates (hq : Describes (placedAll 0 logs) q)
    (hnodup : (logs.flatten.map Record.timestamp).Nodup) :
    (q.updateWals.map UpdateWalUnit.timestamp).Nodup := by
  rw [← map_timestamp_placedAll 0] at hnodup
  rw [hq.updates, List.map_map]
  exact (filter_sublist.map _).nodup hnodup

theorem Describes.contents (hq : Describes (placedAll 0 logs) q) : (q.updateWals.map fun u =>
        (u.timestamp, content (logs.map logFile) (some u.ptr) u.size)) =
      (logs.flatten.filter Record.type).map fun r => (r.timestamp, some r.payload) := by
  rw [hq.updates, List.map_map, ← map_fst_placedAll 0 logs, List.filter_map, List.map_map]
  apply map_congr_left
  intro d hd
  have hcontent := content_placedAll (mem_filter.mp hd).1
  exact Prod.ext rfl hcontent

theorem Describes.roundTrip (hq : Describes (placedAll 0 logs) q) (h : Recoverable logs)
    (hnodup : (logs.flatten.map Record.timestamp).Nodup) : RoundTrip logs q.sortUpdates := by
  constructor
  · intro r hr htype
    obtain ⟨d, hd, rfl⟩ := exists_placed hr
    exact ⟨_, hq.insert d hd htype, content_placedAll hd⟩
  · intro ts hts hne
    apply hq.other ts
    · -- the list reaches beyond the record with the maximal timestamp
      have hleast := hq.least
      change ts ≤ q.lastTs at hts
      rcases hq.lastTs_attained with hzero | ⟨d, hd, hlast⟩
      · omega
      · cases htype : d.1.type with
        | false =>
          have hlt := hq.lt_length hd htype
          omega
        | true =>
          rcases h.updates d.1 (mem_flatten_of_placed hd) htype with hlow | ⟨s, hs, hins, hlt⟩
          · omega
          · obtain ⟨e, he, rfl⟩ := exists_placed hs
            have hlt' := hq.lt_length he hins
            omega
    · exact fun d hd => hne d.1 (mem_flatten_of_placed hd)
  · rw [← hq.contents]
    exact (mergeSort_perm _ _).map _
  · exact sortUpdates_strict (hq.nodup_updates hnodup)
  · intro r hr
    obtain ⟨d, hd, rfl⟩ := exists_placed hr
    exact hq.le_lastTs d hd
  · exact hq.lastTs_attained.imp_right fun ⟨d, hd, hlast⟩ => ⟨d.1, mem_flatten_of_placed hd, hlast⟩

/-- An update that is numbered beyond `insert_wal_list_` has no empty unit there. -/
theorem RoundTrip.update_bound (h : RoundTrip logs q.sortUpdates)
    (hq : Describes (placedAll 0 logs) q) (hnodup : (logs.flatten.map Record.timestamp).Nodup) :
    ∀ r ∈ logs.flatten, r.type = true →
      r.timestamp < 4096 ∨ ∃ s ∈ logs.flatten, s.type = false ∧ r.timestamp < s.timestamp := by
  intro r hr htype
  have hne : ∀ s ∈ logs.flatten, s.type = false → s.timestamp ≠ r.timestamp := by
    intro s hs hfalse heq
    rw [inj_on_of_nodup_map hnodup hs hr heq, htype] at hfalse
    cases hfalse
  have hempty := h.empty r.timestamp (h.le_lastTs r hr) hne
  have hlt : r.timestamp < q.insertWals.length := (List.getElem?_eq_some_iff.mp hempty).1
  rcases hq.tight with hlen | ⟨d, hd, hfalse, hlen⟩
  · exact .inl (hlen ▸ hlt)
  · have hmem := mem_flatten_of_placed hd
    have hdist := hne d.1 hmem hfalse
    exact .inr ⟨d.1, hmem, hfalse, by omega⟩

theorem RoundTrip.recoverable (h : RoundTrip logs p)
    (hnodup : (logs.flatten.map Record.timestamp).Nodup)
    (hopen : LocalWalParser.openWals fuel (logs.map logFile) = some p) : Recoverable logs := by
  have hsmall := h.lengths hopen
  obtain ⟨q, rfl, hdesc, hterm, hinserts⟩ := describes_of_open hsmall hnodup hopen
  exact ⟨hsmall, hterm, hinserts, h.update_bound hdesc hnodup⟩

/-- `LocalWalParser::open` ends inside the files and gives back what was appended exactly for
the recoverable logs. -/
theorem open_roundTrip_iff (logs : List (List Record))
    (hnodup : (logs.flatten.map Record.timestamp).Nodup) :
    (∃ fuel p, LocalWalParser.openWals fuel (logs.map logFile) = some p ∧ RoundTrip logs p) ↔
      Recoverable logs := by
  constructor
  · rintro ⟨fuel, p, hopen, h⟩
    exact h.recoverable hnodup hopen
  · intro h
    obtain ⟨fuel, q, hopen, hdesc⟩ := exists_open h hnodup
    exact ⟨fuel, q.sortUpdates, hopen, hdesc.roundTrip h hnodup⟩

end

def compaction (ts : ℕ) (pos : 1 ≤ ts) (bounded : ts < 2 ^ 32) : Record :=
  ⟨ts, true, [], pos, bounded, by decide⟩

def smallLogs : List (List Record) :=
  [[⟨2, false, [7], by decide, by decide, by decide⟩],
    [compaction 1 (by decide) (by decide)]]

theorem open_roundTrip_small :
    ∃ fuel p, LocalWalParser.openWals fuel (smallLogs.map logFile) = some p ∧
      RoundTrip smallLogs p := by
  refine (open_roundTrip_iff smallLogs (by decide)).mpr ?_
  constructor <;> decide

/-- A database whose only record is an update with the timestamp 4096. -/
theorem open_roundTrip_fails : ¬∃ fuel p, LocalWalParser.openWals fuel
        ([[compaction 4096 (by decide) (by decide)]].map logFile) = some p ∧
      RoundTrip [[compaction 4096 (by decide) (by decide)]] p := by
  rintro ⟨fuel, p, hopen, h⟩
  have hrec := h.recoverable (by simp) hopen
  rcases hrec.updates (compaction 4096 (by decide) (by decide)) (by simp) rfl with
    hlow | ⟨s, hs, htype, -⟩
  · exact absurd hlow (by decide)
  · simp only [flatten_cons, flatten_nil, append_nil, mem_singleton] at hs
    rw [hs] at htype
    exact absurd htype (by decide)

end Neug.Wal
