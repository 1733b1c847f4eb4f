import Neug.Lib.Reach
import Neug.Lib.Renumber
import Neug.Storage.LFIndexer

/-! `LFIndexer` as a map from keys to numbers: the keys in the order of their insertion, for
every hash function. -/
namespace Neug.Storage
open Neug.Lib Neug.Lib.Probing List Option

variable {C K : Type} [KeyColumn C K] [DecidableEq K]

/-- The calls on an indexer; a lookup with `contains` is one of them. -/
inductive IndexerAct (K : Type) where
  | reserve (n : ℕ)
  | rehash (n : ℕ)
  | insert (k : K) (insertSafe : Bool)
  | reopen
  | contains (k : K)

structure Indexed (C K : Type) where
  indexer : LFIndexer C
  inserted : List K

/-- `insert` with its default argument or with `insert_safe`. -/
def LFIndexer.insertCall (hash : K → ℕ) (k : K) : Bool → IndexerCall C ℕ
  | true => LFIndexer.insertSafe hash k
  | false => LFIndexer.insert hash k

def Indexed.afterInsert (s : Indexed C K) (k : K) (r : Except IndexerError ℕ × LFIndexer C) :
    Indexed C K :=
  match r.1 with
  | .ok _ => ⟨r.2, s.inserted ++ [k]⟩
  | .error _ => ⟨r.2, s.inserted⟩

def indexerStep (hash : K → ℕ) (s : Indexed C K) : IndexerAct K → Option (Indexed C K)
  | .reserve n => (s.indexer.reserve hash n).map fun x => { s with indexer := x }
  | .rehash n => (s.indexer.rehash hash n).map fun x => { s with indexer := x }
  | .insert k insertSafe =>
    (LFIndexer.insertCall hash k insertSafe s.indexer).map (s.afterInsert k)
  | .reopen => some { s with indexer := s.indexer.reopen }
  | .contains k => (s.indexer.contains hash k).map fun _ => s

def IndexedInitial (s : Indexed C K) : Prop :=
  ∃ c, KeyColumn.size c = 0 ∧ s = ⟨.create c, []⟩

def contractCall (s : Indexed C K) : IndexerAct K → Prop
  | .insert k _ => k ∉ s.inserted ∧ s.indexer.numElements < s.indexer.capacity
  | _ => True

instance (s : Indexed C K) : (a : IndexerAct K) → Decidable (contractCall s a)
  | .insert _ _ => inferInstanceAs (Decidable (_ ∧ _))
  | .reserve _ | .rehash _ | .reopen | .contains _ => .isTrue trivial

/-- The indexer is the map of the inserted keys to their positions, and every call that `ok`
allows has a result. -/
structure RefinesMap (hash : K → ℕ) (ok : Indexed C K → IndexerAct K → Prop) (s : Indexed C K) :
    Prop where
  getIndex : ∀ k, s.indexer.getIndex hash k = some (s.inserted.idxOf? k)
  getKey : ∀ k i, s.indexer.getIndex hash k = some (some i) → s.indexer.getKey i = some k
  contains : ∀ k, ok s (.contains k) →
    s.indexer.contains hash k = some (decide (k ∈ s.inserted))
  defined : ∀ a, ok s a → ∃ s', indexerStep hash s a = some s'

/-- The column keeps its first `n` cells. -/
def KeepsCells (c c' : C) (n : ℕ) : Prop :=
  ∀ i < n, KeyColumn.getProp c' i = KeyColumn.getProp c i

instance (c c' : C) (n : ℕ) : Decidable (KeepsCells c c' n) :=
  inferInstanceAs (Decidable (∀ i < n, KeyColumn.getProp c' i = KeyColumn.getProp c i))

/-- A call of `resize` that keeps the keys there are. -/
def ResizesTo (s : Indexed C K) (n : ℕ) : Prop :=
  s.inserted.length ≤ n ∧ n ≤ 2 ^ 53 ∧
    KeyColumn.size (KeyColumn.resize (max n 4) s.indexer.keys) = max n 4 ∧
    KeepsCells s.indexer.keys (KeyColumn.resize (max n 4) s.indexer.keys) s.inserted.length

instance (s : Indexed C K) (n : ℕ) : Decidable (ResizesTo s n) :=
  inferInstanceAs (Decidable (_ ∧ _ ∧ _ ∧ _))

def Stores (s : Indexed C K) (k : K) : Prop :=
  ((KeyColumn.setAny s.inserted.length k s.indexer.keys).any fun c =>
    decide (KeyColumn.size c = KeyColumn.size s.indexer.keys ∧
      KeyColumn.getProp c s.inserted.length = some k ∧
      KeepsCells s.indexer.keys c s.inserted.length)) = true

instance (s : Indexed C K) (k : K) : Decidable (Stores s k) :=
  inferInstanceAs (Decidable (_ = true))

/-- The calls for which the contract holds: a `rehash` does not go below the number of keys, an
id is below the sentinel, the column gives back what it is given, and `contains` is asked when
there are slots. -/
def soundCall (s : Indexed C K) : IndexerAct K → Prop
  | .reserve n => ResizesTo s (max n s.inserted.length)
  | .rehash n => ResizesTo s n
  | .insert k _ => (k ∉ s.inserted ∧ s.indexer.numElements < s.indexer.capacity) ∧
      s.inserted.length < sentinel ∧ Stores s k
  | .reopen =>
      KeyColumn.size (KeyColumn.reload s.indexer.keys) = KeyColumn.size s.indexer.keys ∧
        KeepsCells s.indexer.keys (KeyColumn.reload s.indexer.keys) s.inserted.length
  | .contains _ => s.indexer.indices ≠ []

instance (s : Indexed C K) : (a : IndexerAct K) → Decidable (soundCall s a)
  | .reserve _ => inferInstanceAs (Decidable (ResizesTo _ _))
  | .rehash _ => inferInstanceAs (Decidable (ResizesTo _ _))
  | .insert _ _ => inferInstanceAs (Decidable ((_ ∧ _) ∧ _ ∧ _))
  | .reopen => inferInstanceAs (Decidable (_ ∧ _))
  | .contains _ => inferInstanceAs (Decidable (_ ≠ _))

section

variable {hash : K → ℕ} {x : LFIndexer C} {ks : List K} {k : K} {i m : ℕ}

def homeOf (hash : K → ℕ) (ks : List K) (m i : ℕ) : ℕ := ((ks[i]?).map hash).getD 0 % m

def HoldsKeys (c : C) (ks : List K) : Prop :=
  ∀ (i : ℕ) k, ks[i]? = some k → KeyColumn.getProp c i = some k

structure Probes (hash : K → ℕ) (x : LFIndexer C) (ks : List K) : Prop where
  slots : x.numSlotsMinusOne + 1 = x.indices.length
  modulus : x.modulus = x.indices.length
  room : ks.length < x.indices.length
  small : ks.length ≤ sentinel
  nodup : ks.Nodup
  holds : HoldsKeys x.keys ks
  seated : Seated sentinel (homeOf hash ks x.indices.length) (Finset.range ks.length) x.indices

omit [DecidableEq K] in
theorem homeOf_eq (h : ks[i]? = some k) : homeOf hash ks m i = hash k % m := by
  rw [homeOf, h, map_some, getD_some]

theorem indexForHash_eq (hm : 0 < m) (h : ℕ) : LFIndexer.indexForHash m h = h % m :=
  if_neg (by omega)

omit [DecidableEq K] in
theorem exists_key_of_lt (hi : i < ks.length) : ∃ k, ks[i]? = some k :=
  ⟨_, getElem?_eq_getElem hi⟩

section

variable (h : Probes hash x ks)
include h

theorem Probes.matchesKey_eq {k' : K} (hi : ks[i]? = some k') :
    LFIndexer.matchesKey x.keys k i = some (decide (k' = k)) := by
  have hlt := (List.getElem?_eq_some_iff.mp hi).1
  have hsmall := h.small
  rw [LFIndexer.matchesKey, if_neg (by omega), h.holds i k' hi, map_some]

theorem Probes.lookup_hit (hi : ks[i]? = some k) : x.lookup hash k = some i := by
  have hlt := (List.getElem?_eq_some_iff.mp hi).1
  have hroom := h.room
  have hpos : 0 < x.indices.length := by omega
  obtain ⟨d, hd, hseat, hbefore⟩ := h.seated.first_seat (mem_range.mpr hlt)
  rw [homeOf_eq hi] at hseat hbefore
  have hwalk : walk x.indices x.indices.length (LFIndexer.matchesKey x.keys k) x.indices.length
      (hash k % x.indices.length) = some (seat x.indices.length (hash k % x.indices.length) d) := by
    apply walk_eq (Nat.mod_lt _ hpos)
    · intro c hc
      obtain ⟨w, hw, hne, hslot⟩ := hbefore c hc
      obtain ⟨k', hk'⟩ := exists_key_of_lt (mem_range.mp hw)
      refine ⟨w, hslot, ?_⟩
      rw [h.matchesKey_eq hk', some_inj, decide_eq_false_iff_not]
      rintro rfl
      exact hne ((getElem?_inj (mem_range.mp hw) h.nodup).mp (hk'.trans hi.symm))
    · exact ⟨i, hseat, by rw [h.matchesKey_eq hi, decide_eq_true rfl]⟩
    · exact hd
  rw [LFIndexer.lookup, h.slots, h.modulus, indexForHash_eq hpos, hwalk, bind_some, hseat]

theorem Probes.lookup_miss (hk : k ∉ ks) : x.lookup hash k = some sentinel := by
  have hroom := h.room
  have hpos : 0 < x.indices.length := by omega
  have hcard : (Finset.range ks.length).card < x.indices.length := by rwa [Finset.card_range]
  obtain ⟨d, hd, hempty, hbefore⟩ := h.seated.first_empty hcard (hash k % x.indices.length)
  have hwalk : walk x.indices x.indices.length (LFIndexer.matchesKey x.keys k) x.indices.length
      (hash k % x.indices.length) = some (seat x.indices.length (hash k % x.indices.length) d) := by
    apply walk_eq (Nat.mod_lt _ hpos)
    · intro c hc
      obtain ⟨w, hw, hslot⟩ := hbefore c hc
      obtain ⟨k', hk'⟩ := exists_key_of_lt (mem_range.mp hw)
      refine ⟨w, hslot, ?_⟩
      rw [h.matchesKey_eq hk', some_inj, decide_eq_false_iff_not]
      rintro rfl
      exact hk (mem_of_getElem? hk')
    · exact ⟨sentinel, hempty, if_pos rfl⟩
    · exact hd
  rw [LFIndexer.lookup, h.slots, h.modulus, indexForHash_eq hpos, hwalk, bind_some, hempty]

theorem Probes.getIndex_eq (k : K) : x.getIndex hash k = some (ks.idxOf? k) := by
  have hroom := h.room
  rw [LFIndexer.getIndex, if_neg (by omega)]
  cases hidx : ks.idxOf? k with
  | none =>
    rw [h.lookup_miss (idxOf?_eq_none_iff.mp hidx), map_some, if_pos rfl]
  | some i =>
    obtain ⟨hlt, hkey, -⟩ := idxOf?_eq_some_iff.mp hidx
    have hi : ks[i]? = some k := List.getElem?_eq_some_iff.mpr ⟨hlt, by simpa using hkey⟩
    have hsmall := h.small
    rw [h.lookup_hit hi, map_some, if_neg (by omega)]

theorem Probes.contains_eq (k : K) : x.contains hash k = some (decide (k ∈ ks)) := by
  by_cases hk : k ∈ ks
  · obtain ⟨i, hlt, hi⟩ := getElem_of_mem hk
    have hsmall := h.small
    rw [LFIndexer.contains, h.lookup_hit (List.getElem?_eq_some_iff.mpr ⟨hlt, hi⟩),
      map_some, decide_eq_true hk, decide_eq_true (by omega)]
  · rw [LFIndexer.contains, h.lookup_miss hk, map_some, decide_eq_false hk,
      decide_eq_false (by simp)]

end

end

section

variable {hash : K → ℕ} {slots : List ℕ} {items : Finset ℕ} {home : ℕ → ℕ} {ks : List K} {c : C}

theorem place_seated {ind h : ℕ} (hs : Seated sentinel home items slots)
    (hcard : items.card < slots.length) (hhome : home ind = h % slots.length)
    (hne : ind ≠ sentinel) (hnew : ind ∉ items) :
    ∃ slots', LFIndexer.place slots.length slots.length h ind slots = some slots' ∧
      slots'.length = slots.length ∧ Seated sentinel home (insert ind items) slots' := by
  have hpos : 0 < slots.length := by omega
  obtain ⟨d, hd, hempty, hbefore⟩ := hs.first_empty hcard (home ind)
  have hwalk : walk slots slots.length (fun v => some (decide (v = sentinel))) slots.length
      (home ind) = some (seat slots.length (home ind) d) := by
    apply walk_eq (hhome ▸ Nat.mod_lt _ hpos)
    · intro c hc
      obtain ⟨w, hw, hslot⟩ := hbefore c hc
      refine ⟨w, hslot, ?_⟩
      rw [decide_eq_false]
      rintro rfl
      exact hs.not_empty hw
    · exact ⟨sentinel, hempty, by rw [decide_eq_true rfl]⟩
    · exact hd
  refine ⟨_, ?_, length_set .., hs.insert hne hnew hd hempty hbefore⟩
  rw [LFIndexer.place, indexForHash_eq hpos, ← hhome, hwalk, map_some]

omit [DecidableEq K] in
theorem refill_seated {rest : ℕ} (idx : ℕ) (hsum : idx + rest = ks.length)
    (hkeys : HoldsKeys c ks) (hroom : ks.length < slots.length) (hsmall : ks.length ≤ sentinel)
    (hs : Seated sentinel (homeOf hash ks slots.length) (Finset.range idx) slots) :
    ∃ slots', LFIndexer.refill hash c slots.length idx (replicate rest true) slots =
        some slots' ∧ slots'.length = slots.length ∧
      Seated sentinel (homeOf hash ks slots.length) (Finset.range ks.length) slots' := by
  induction rest generalizing idx slots with
  | zero =>
    obtain rfl : idx = ks.length := by omega
    exact ⟨slots, rfl, rfl, hs⟩
  | succ rest ih =>
    obtain ⟨k, hk⟩ := exists_key_of_lt (show idx < ks.length by omega)
    obtain ⟨slots', hplace, hlen, hs'⟩ := place_seated hs (by rw [Finset.card_range]; omega)
      (homeOf_eq hk) (by omega) Finset.notMem_range_self
    rw [← Finset.range_add_one, ← hlen] at hs'
    obtain ⟨slots'', hrest, hlen', hs''⟩ := ih (idx + 1) (by omega) (by omega) hs'
    refine ⟨slots'', ?_, hlen'.trans hlen, hlen ▸ hs''⟩
    rw [replicate_succ, LFIndexer.refill, hkeys idx k hk, bind_some, if_pos rfl,
      hplace, bind_some, ← hlen, hrest]

end

section

variable {hash : K → ℕ} {s : Indexed C K} {x : LFIndexer C} {ks : List K} {k : K} {n : ℕ}

structure Tracks (hash : K → ℕ) (s : Indexed C K) : Prop where
  count : s.indexer.numElements = s.inserted.length
  table : (s.indexer.indices = [] ∧ s.inserted = [] ∧ KeyColumn.size s.indexer.keys = 0) ∨
    Probes hash s.indexer s.inserted ∧
      2 * KeyColumn.size s.indexer.keys ≤ s.indexer.indices.length ∧
      s.inserted.length ≤ KeyColumn.size s.indexer.keys

omit [DecidableEq K] in
theorem HoldsKeys.keep {c c' : C} (h : HoldsKeys c ks) (hkeep : KeepsCells c c' ks.length) :
    HoldsKeys c' ks := by
  intro i k hi
  rw [hkeep i (List.getElem?_eq_some_iff.mp hi).1]
  exact h i k hi

omit [DecidableEq K] in
theorem Probes.keep {c : C} (h : Probes hash x ks) (hkeep : KeepsCells x.keys c ks.length) :
    Probes hash { x with keys := c } ks :=
  ⟨h.slots, h.modulus, h.room, h.small, h.nodup, h.holds.keep hkeep, h.seated⟩

theorem le_nextSizeOver {size : ℕ} (h : size ≤ 2 ^ 54) : size ≤ nextSizeOver size := by
  unfold nextSizeOver
  cases hfind : primeList.find? fun p => size ≤ p with
  | none =>
    rw [getD_none]
    omega
  | some p =>
    have hle := find?_some hfind
    exact of_decide_eq_true hle

section

variable (hcount : x.numElements = ks.length) (hkeys : HoldsKeys x.keys ks)
  (hcontains : ∀ k ∈ ks, x.contains hash k = some true)
include hcount hkeys hcontains

theorem marks_eq : x.marks hash = some (replicate ks.length true) := by
  have hmap : (range ks.length).mapM (fun idx =>
      (KeyColumn.getProp x.keys idx).bind (x.contains hash)) =
      some ((range ks.length).map fun _ => true) := by
    apply mapM_eq_some_map
    intro idx hidx
    obtain ⟨k, hk⟩ := exists_key_of_lt (mem_range.mp hidx)
    rw [hkeys idx k hk, bind_some, hcontains k (mem_of_getElem? hk)]
  rw [LFIndexer.marks, hcount, hmap, map_const', length_range]

theorem rebuild_probes {m : ℕ}
    (hnodup : ks.Nodup) (hsmall : ks.length ≤ sentinel) (hroom : ks.length < m) :
    ∃ slots, x.rebuild hash m =
        some { x with indices := slots, numSlotsMinusOne := m - 1, modulus := m } ∧
      slots.length = m ∧
      Probes hash { x with indices := slots, numSlotsMinusOne := m - 1, modulus := m } ks := by
  have hlen : (replicate m sentinel).length = m := length_replicate
  obtain ⟨slots, hrefill, hslots, hseated⟩ := refill_seated 0
    (zero_add ks.length) hkeys (by rwa [hlen]) hsmall
    (seated_replicate sentinel (homeOf hash ks (replicate m sentinel).length) m)
  rw [hlen] at hrefill hslots hseated
  refine ⟨slots, ?_, hslots, ?_⟩
  · rw [LFIndexer.rebuild, marks_eq hcount hkeys hcontains, bind_some, hrefill, map_some]
  · refine ⟨?_, hslots.symm, hslots.symm ▸ hroom, hsmall, hnodup, hkeys, ?_⟩
    · simp only
      omega
    · simp only [hslots]
      exact hseated

end

omit [DecidableEq K] in
theorem Tracks.holds (h : Tracks hash s) : HoldsKeys s.indexer.keys s.inserted := by
  rcases h.table with ⟨-, hnil, -⟩ | ⟨hp, -⟩
  · rw [hnil]
    intro i k hi
    cases hi
  · exact hp.holds

omit [DecidableEq K] in
theorem Tracks.nodup (h : Tracks hash s) : s.inserted.Nodup := by
  rcases h.table with ⟨-, hnil, -⟩ | ⟨hp, -⟩
  · rw [hnil]
    exact nodup_nil
  · exact hp.nodup

section

variable (h : Tracks hash s)
include h

omit [DecidableEq K] in
theorem Tracks.small : s.inserted.length ≤ sentinel := by
  rcases h.table with ⟨-, hnil, -⟩ | ⟨hp, -⟩
  · rw [hnil]
    exact Nat.zero_le _
  · exact hp.small

theorem Tracks.rehash (hn : ResizesTo s n) :
    ∃ x, s.indexer.rehash hash n = some x ∧ Tracks hash { s with indexer := x } := by
  obtain ⟨hle, hmax, hsize, hkeep⟩ := hn
  have hkeys := h.holds.keep hkeep
  by_cases hsame : 2 * max n 4 = s.indexer.indices.length
  · refine ⟨_, if_pos hsame, h.count, .inr ?_⟩
    rcases h.table with ⟨hnil, -⟩ | ⟨hp, -, -⟩
    · rw [hnil, length_nil] at hsame
      omega
    · refine ⟨hp.keep hkeep, ?_, ?_⟩
      · simp only [hsize]
        omega
      · simp only [hsize]
        omega
  · have hcontains : ∀ k ∈ s.inserted, LFIndexer.contains hash { s.indexer with
          keys := KeyColumn.resize (max n 4) s.indexer.keys } k = some true := by
      intro k hk
      rcases h.table with ⟨-, hnil, -⟩ | ⟨hp, -⟩
      · rw [hnil] at hk
        exact absurd hk not_mem_nil
      · rw [(hp.keep hkeep).contains_eq k, decide_eq_true hk]
    have hprime : 2 * max n 4 ≤ nextSizeOver (2 * max n 4) := le_nextSizeOver (by omega)
    obtain ⟨slots, hrun, hlen, hp⟩ := rebuild_probes
      (x := { s.indexer with keys := KeyColumn.resize (max n 4) s.indexer.keys })
      h.count hkeys hcontains h.nodup h.small
      (show s.inserted.length < nextSizeOver (2 * max n 4) by omega)
    refine ⟨_, (if_neg hsame).trans hrun, h.count, .inr ⟨hp, ?_, ?_⟩⟩
    · simp only [hsize, hlen]
      exact hprime
    · simp only [hsize]
      omega

theorem Tracks.store (hnew : k ∉ s.inserted)
    (hroom : s.inserted.length < KeyColumn.size s.indexer.keys)
    (hsmall : s.inserted.length < sentinel) (hstores : Stores s k) :
    ∃ x, LFIndexer.store hash k s.inserted.length
        { s.indexer with numElements := s.indexer.numElements + 1 } =
        some (.ok s.inserted.length, x) ∧
      Tracks hash ⟨x, s.inserted ++ [k]⟩ := by
  unfold Stores at hstores
  cases hset : KeyColumn.setAny s.inserted.length k s.indexer.keys with
  | none => simp [hset] at hstores
  | some c =>
    rw [hset, any_some, decide_eq_true_eq] at hstores
    obtain ⟨hsize, hget, hkeep⟩ := hstores
    rcases h.table with ⟨-, -, hzero⟩ | ⟨hp, hload, hfits⟩
    · omega
    · -- the table has room, since the column has
      have hcard : (Finset.range s.inserted.length).card < s.indexer.indices.length := by
        rw [Finset.card_range]
        omega
      have hold : ∀ v ∈ range s.inserted.length,
          homeOf hash (s.inserted ++ [k]) s.indexer.indices.length v =
            homeOf hash s.inserted s.indexer.indices.length v := by
        intro v hv
        rw [homeOf, homeOf, getElem?_append_left (mem_range.mp hv)]
      have hlast : (s.inserted ++ [k])[s.inserted.length]? = some k := by simp
      obtain ⟨slots, hplace, hlen, hseated⟩ := place_seated (hp.seated.congr hold) hcard
        (homeOf_eq hlast) (by omega) Finset.notMem_range_self
      rw [← Finset.range_add_one] at hseated
      refine ⟨{ s.indexer with keys := c, indices := slots,
                               numElements := s.indexer.numElements + 1 }, ?_, ?_, .inr ?_⟩
      · rw [LFIndexer.store, Call.read_bind]
        simp only [hset, hp.slots, hp.modulus, hplace]
        rfl
      · simp [h.count]
      · refine ⟨⟨?_, ?_, ?_, ?_, ?_, ?_, ?_⟩, ?_, ?_⟩
        · exact hp.slots.trans hlen.symm
        · exact hp.modulus.trans hlen.symm
        · simp only [length_append, length_singleton]
          omega
        · simp only [length_append, length_singleton]
          omega
        · exact hp.nodup.append (nodup_singleton k) (by simpa using hnew)
        · intro i k' hi
          rcases lt_or_ge i s.inserted.length with hlt | hge
          · rw [getElem?_append_left hlt] at hi
            rw [hkeep i hlt]
            exact hp.holds i k' hi
          · have hi' := (List.getElem?_eq_some_iff.mp hi).1
            rw [length_append, length_singleton] at hi'
            obtain rfl : i = s.inserted.length := by omega
            rw [hlast] at hi
            exact hget.trans hi
        · simp only [length_append, hlen]
          exact hseated
        · simp only [hsize, hlen]
          exact hload
        · simp only [length_append, length_singleton]
          omega

theorem Tracks.insert {insertSafe : Bool} (hok : soundCall s (.insert k insertSafe)) :
    ∃ x, LFIndexer.insertCall hash k insertSafe s.indexer = some (.ok s.inserted.length, x) ∧
      Tracks hash ⟨x, s.inserted ++ [k]⟩ := by
  obtain ⟨⟨hnew, hcap⟩, hsmall, hstores⟩ := hok
  have hroom : s.inserted.length < KeyColumn.size s.indexer.keys := h.count ▸ hcap
  have hind : s.indexer.numElements % 2 ^ 32 = s.inserted.length := by
    unfold sentinel at hsmall
    rw [h.count, Nat.mod_eq_of_lt (by omega)]
  obtain ⟨x, hrun, hx⟩ := h.store hnew hroom hsmall hstores
  refine ⟨x, ?_, hx⟩
  cases insertSafe with
  | false =>
    rw [LFIndexer.insertCall, LFIndexer.insert, Call.read_bind, hind,
      if_neg (show ¬s.indexer.capacity ≤ s.inserted.length from not_le.mpr hroom)]
    exact hrun
  | true =>
    rw [LFIndexer.insertCall, LFIndexer.insertSafe, Call.read_bind, if_neg (not_le.mpr hcap), hind]
    exact hrun

theorem Tracks.step {a : IndexerAct K} (hok : soundCall s a) :
    ∃ s', indexerStep hash s a = some s' ∧ Tracks hash s' := by
  cases a with
  | reserve n =>
    obtain ⟨x, hrun, hx⟩ := h.rehash hok
    refine ⟨_, ?_, hx⟩
    rw [indexerStep, LFIndexer.reserve, h.count, hrun, map_some]
  | rehash n =>
    obtain ⟨x, hrun, hx⟩ := h.rehash hok
    exact ⟨_, by rw [indexerStep, hrun, map_some], hx⟩
  | insert k insertSafe =>
    obtain ⟨x, hrun, hx⟩ := h.insert hok
    exact ⟨_, by rw [indexerStep, hrun]; rfl, hx⟩
  | reopen =>
    obtain ⟨hsize, hkeep⟩ := hok
    refine ⟨_, rfl, h.count, ?_⟩
    rcases h.table with ⟨hnil, hks, hzero⟩ | ⟨hp, hload, hfits⟩
    · exact .inl ⟨hnil, hks, hsize.trans hzero⟩
    · exact .inr ⟨hp.keep hkeep, hsize ▸ hload, hsize ▸ hfits⟩
  | contains k =>
    rcases h.table with ⟨hnil, -⟩ | ⟨hp, -⟩
    · exact absurd hnil hok
    · exact ⟨s, by rw [indexerStep, hp.contains_eq k, map_some], h⟩

theorem Tracks.refines : RefinesMap hash soundCall s := by
  have hindex : ∀ k, s.indexer.getIndex hash k = some (s.inserted.idxOf? k) := by
    intro k
    rcases h.table with ⟨hnil, hks, -⟩ | ⟨hp, -⟩
    · rw [LFIndexer.getIndex, hnil, hks]
      rfl
    · exact hp.getIndex_eq k
  refine ⟨hindex, ?_, ?_, fun a hok => (h.step hok).imp fun _ => And.left⟩
  · intro k i hk
    rw [hindex k, some_inj] at hk
    obtain ⟨hlt, hkey, -⟩ := idxOf?_eq_some_iff.mp hk
    exact h.holds i k (List.getElem?_eq_some_iff.mpr ⟨hlt, by simpa using hkey⟩)
  · intro k hok
    rcases h.table with ⟨hnil, -⟩ | ⟨hp, -⟩
    · exact absurd hnil hok
    · exact hp.contains_eq k

end

end

/-- For every hash function and every key column: after sound calls, the indexer is the map of
the inserted keys to their numbers, and every sound call has a result. -/
theorem indexer_refines_map (hash : K → ℕ) {s : Indexed C K}
    (h : Reach IndexedInitial (indexerStep hash) soundCall s) : RefinesMap hash soundCall s := by
  have hinv : Tracks hash s := by
    refine Reach.invariant (fun _ _ => trivial) ?_ ?_ h
    · rintro s ⟨c, hc, rfl⟩
      exact ⟨rfl, .inl ⟨rfl, rfl, hc⟩⟩
    · intro s a s' _ hs hok hstep
      obtain ⟨t, ht, htracks⟩ := hs.step hok
      rw [hstep, some_inj] at ht
      exact ht ▸ htracks
  exact hinv.refines

def emptyIndexer : Indexed (FixedColumn ℕ) ℕ := ⟨.create ⟨[]⟩, []⟩

def threeKeys : List (IndexerAct ℕ) :=
  [.reserve 4, .insert 10 false, .insert 20 true, .reopen, .rehash 5, .insert 30 false,
    .contains 20]

/-- All keys have one hash. -/
theorem indexer_refines_three : ∃ s : Indexed (FixedColumn ℕ) ℕ, s.inserted = [10, 20, 30] ∧
      RefinesMap (fun _ => 0) soundCall s := by
  have hstart : Reach IndexedInitial (indexerStep fun _ => 0) soundCall emptyIndexer :=
    .init ⟨⟨[]⟩, rfl, rfl⟩
  obtain ⟨s, hreach, hs⟩ := hstart.exists_of_execute threeKeys
    (fun s => s.inserted = [10, 20, 30]) (by decide +kernel)
  exact ⟨s, hs, indexer_refines_map _ hreach⟩

def fiveKeys : List (IndexerAct ℕ) :=
  [.reserve 5, .insert 10 false, .insert 11 false, .insert 12 false, .insert 13 false,
    .insert 14 false]

/-- `rehash(4)` with five keys reads a key that it has cut off, and `contains` reads a slot of a
table without slots. -/
theorem indexer_out_of_range :
    (∃ s : Indexed (FixedColumn ℕ) ℕ, Reach IndexedInitial (indexerStep id) contractCall s ∧
      indexerStep id s (.rehash 4) = none ∧ ¬RefinesMap id contractCall s) ∧
    ∃ s : Indexed (FixedColumn ℕ) ℕ, Reach IndexedInitial (indexerStep id) contractCall s ∧
      s.inserted = [] ∧ s.indexer.contains id 7 = none ∧ ¬RefinesMap id contractCall s := by
  have hstart : Reach IndexedInitial (indexerStep id) contractCall emptyIndexer :=
    .init ⟨⟨[]⟩, rfl, rfl⟩
  constructor
  · obtain ⟨s, hreach, hs⟩ := hstart.exists_of_execute fiveKeys
      (fun s => (indexerStep id s (.rehash 4)).isNone) (by decide +kernel)
    have hnone := isNone_iff_eq_none.mp hs
    refine ⟨s, hreach, hnone, fun href => ?_⟩
    obtain ⟨s', hs'⟩ := href.defined (.rehash 4) trivial
    rw [hnone] at hs'
    cases hs'
  · have hnone : emptyIndexer.indexer.contains id 7 = none := by decide
    refine ⟨emptyIndexer, hstart, rfl, hnone, fun href => ?_⟩
    have hcontains := href.contains 7 trivial
    cases hcontains

end Neug.Storage
