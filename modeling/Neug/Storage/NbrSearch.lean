import Neug.Lib.LittleEndian
import Neug.Lib.Matching
import Neug.Storage.EdgeTable

/-! `search_other_offset_with_cur_offset` on the bytes of the neighbor records, for every kind of
CSR and every type of edge data. -/
namespace Neug.Storage
open Neug.Lib List Option

abbrev Memory := ℕ → UInt8

namespace Memory

def bytes (m : Memory) (a size : ℕ) : List UInt8 := (List.range size).map fun i => m (a + i)

/-- A `vid_t` or a `timestamp_t`. -/
def word (m : Memory) (a : ℕ) : ℕ := leValue (m.bytes a 4)

theorem bytes_eight_eq_iff (m : Memory) (a b : ℕ) :
    m.bytes a 8 = m.bytes b 8 ↔ m.word a = m.word b ∧ m.word (a + 4) = m.word (b + 4) := by
  have hsplit (a : ℕ) : m.bytes a 8 = m.bytes a 4 ++ m.bytes (a + 4) 4 := by
    simp [bytes, range_succ]
  have hlen (a b : ℕ) : (m.bytes a 4).length = (m.bytes b 4).length := by simp [bytes]
  rw [hsplit, hsplit, word, word, word, word, leValue_inj (hlen _ _), leValue_inj (hlen _ _)]
  refine ⟨fun h => ?_, fun ⟨h, h'⟩ => by rw [h, h']⟩
  exact append_inj h (hlen a b)

end Memory

/-- A type of edge data: `sizeof`, `alignof`, and `==` on the bytes of two values. -/
structure ElementType where
  size : ℕ
  align : ℕ
  eq : List UInt8 → List UInt8 → Bool
  symm : ∀ a b, eq a b → eq b a
  trans : ∀ a b c, eq a b → eq b c → eq a c

/-- `uint64_t`: the type of row indices, and of the search where edges have no data. -/
def ElementType.uint64 : ElementType where
  size := 8
  align := 8
  eq := (· == ·)
  symm _ _ h := beq_iff_eq.mpr (beq_iff_eq.mp h).symm
  trans a b c hab hbc := by
    obtain rfl := beq_iff_eq.mp hab
    exact hbc

structure NbrIterConfig where
  stride : ℕ
  tsOffset : ℕ
  dataOffset : ℕ
  deriving DecidableEq, Repr

def roundUp (n align : ℕ) : ℕ := (n + align - 1) / align * align

/-- `sizeof` and `offsetof` of `MutableNbr` and `ImmutableNbr`. In the records without data the
data shares the bytes of the timestamp, or of the neighbor. -/
def nbrConfig (isMutable : Bool) : Option ElementType → NbrIterConfig
  | none => if isMutable then ⟨8, 4, 4⟩ else ⟨4, 0, 0⟩
  | some ty =>
    let data := roundUp (if isMutable then 8 else 4) ty.align
    ⟨roundUp (data + ty.size) (max 4 ty.align), if isMutable then 4 else 0, data⟩

/-- `NbrList`, with the number of records in place of the end. -/
structure NbrList where
  start : ℕ
  degree : ℕ
  cfg : NbrIterConfig
  timestamp : ℕ

namespace NbrList

/-- `get_nbr_ptr` of the record at an offset. -/
def nbrPtr (l : NbrList) (i : ℕ) : ℕ := l.start + i * l.cfg.stride
def dataPtr (l : NbrList) (i : ℕ) : ℕ := l.nbrPtr i + l.cfg.dataOffset
def vertex (m : Memory) (l : NbrList) (i : ℕ) : ℕ := m.word (l.nbrPtr i)

/-- `get_timestamp`: for immutable records this is the neighbor, which is the largest number in
a record that was deleted. -/
def stamp (m : Memory) (l : NbrList) (i : ℕ) : ℕ := m.word (l.nbrPtr i + l.cfg.tsOffset)

/-- The offsets of the visible records that lead to `nbr`. -/
def candidates (m : Memory) (l : NbrList) (nbr : ℕ) : List ℕ :=
  (List.range l.degree).filter fun i =>
    decide (l.stamp m i ≤ l.timestamp) && l.vertex m i == nbr

end NbrList

def Memory.nbrDataEq (m : Memory) (ty : ElementType) (a b : ℕ) : Bool :=
  ty.eq (m.bytes a ty.size) (m.bytes b ty.size)

namespace NbrList

/-- `find_exact_match_in_candidates`. A record without timestamp is never taken. -/
def findExactMatch (m : Memory) (l : NbrList) (expected : ℕ) (ty : ElementType) : List ℕ → ℕ
  | [] => int32Max
  | i :: rest =>
    if m.nbrDataEq ty (l.dataPtr i) expected then
      if 0 < l.cfg.tsOffset then
        if m.word (l.nbrPtr i + l.cfg.tsOffset) =
            m.word (expected + l.cfg.tsOffset - l.cfg.dataOffset) then i
        else findExactMatch m l expected ty rest
      else findExactMatch m l expected ty rest
    else findExactMatch m l expected ty rest

def fuzzySearchOffset (m : Memory) (l : NbrList) (nbr expected : ℕ) (ty : ElementType) : ℕ :=
  match l.candidates m nbr with
  | [] => int32Max
  | [i] => i
  | is => l.findExactMatch m expected ty is

end NbrList

/-- Where the lists of a CSR are: one record for each vertex, or an array of pointers and an array
of degrees, which are of type `int`. -/
inductive AdjLists where
  | single (base : ℕ)
  | multiple (starts : ℕ → ℕ) (degrees : ℕ → Fin (2 ^ 31))

structure GenericView where
  lists : AdjLists
  cfg : NbrIterConfig
  timestamp : ℕ

def GenericView.getEdges (g : GenericView) (v : ℕ) : NbrList :=
  match g.lists with
  | .single base => ⟨base + v * g.cfg.stride, 1, g.cfg, g.timestamp⟩
  | .multiple starts degrees => ⟨starts v, degrees v, g.cfg, g.timestamp⟩

def searchOtherOffset (m : Memory) (cur other : GenericView) (src dst offset : ℕ)
    (ty : ElementType) : ℕ :=
  (other.getEdges dst).fuzzySearchOffset m src ((cur.getEdges src).dataPtr offset) ty

/-- What a search reads of an edge table: the memory, the type of the data in both CSRs, which is
none for edges without properties, and the two CSRs. -/
structure EdgeMemory where
  memory : Memory
  element : Option ElementType
  outMutable : Bool
  inMutable : Bool
  outLists : AdjLists
  inLists : AdjLists

namespace EdgeMemory

variable (s : EdgeMemory) (ts src dst : ℕ)

/-- `get_generic_view` of a CSR. Readers of an immutable CSR see all records but the deleted
ones. -/
def genericView (isMutable : Bool) (lists : AdjLists) : GenericView :=
  ⟨lists, nbrConfig isMutable s.element, if isMutable then ts else invalidTimestamp - 1⟩

def outEdges : NbrList := (s.genericView ts s.outMutable s.outLists).getEdges src
def inEdges : NbrList := (s.genericView ts s.inMutable s.inLists).getEdges dst
def searchType : ElementType := s.element.getD .uint64

/-- The search for the incoming record of an edge from `src` to `dst`. -/
def search (offset : ℕ) : ℕ :=
  searchOtherOffset s.memory (s.genericView ts s.outMutable s.outLists)
    (s.genericView ts s.inMutable s.inLists) src dst offset s.searchType

def value (l : NbrList) (i : ℕ) : List UInt8 :=
  match s.element with
  | none => []
  | some ty => s.memory.bytes (l.dataPtr i) ty.size

def tag (l : NbrList) (i : ℕ) : ℕ × List UInt8 :=
  (if s.outMutable && s.inMutable then l.stamp s.memory i else 0, s.value l i)

/-- The offsets of the visible edges from `src` to `dst` in the outgoing list. -/
def outs : List ℕ := (s.outEdges ts src).candidates s.memory dst
def ins : List ℕ := (s.inEdges ts dst).candidates s.memory src

/-- Both CSRs hold the same visible edges from `src` to `dst`. -/
def MirroredAt : Prop :=
  ((s.outs ts src dst).map (s.tag (s.outEdges ts src))).Perm
    ((s.ins ts src dst).map (s.tag (s.inEdges ts dst)))

/-- The search finds the other end of every edge from `src` to `dst`, and different ends for
edges that differ. -/
def Finds : Prop :=
  (∀ o ∈ s.outs ts src dst, s.search ts src dst o ∈ s.ins ts src dst ∧
    s.tag (s.inEdges ts dst) (s.search ts src dst o) = s.tag (s.outEdges ts src) o) ∧
  ∀ os : List ℕ, (∀ o ∈ os, o ∈ s.outs ts src dst) →
    (os.map (s.tag (s.outEdges ts src))).Nodup → (os.map (s.search ts src dst)).Nodup

/-- What the search compares with the timestamps of a mutable incoming CSR where the outgoing CSR
has none: the neighbor, or the padding before the data. -/
def stray (ty : ElementType) (o : ℕ) : ℕ :=
  s.memory.word ((s.outEdges ts src).nbrPtr o + roundUp 4 ty.align + 4 - roundUp 8 ty.align)

/-- The edges from `src` to `dst` can be told apart by a search. -/
def Told : Prop :=
  (s.outs ts src dst).length ≤ 1 ∨ s.inMutable = true ∧
    let out := s.outEdges ts src
    let inn := s.inEdges ts dst
    match s.outMutable, s.element with
    | true, some ty => ∀ o ∈ s.outs ts src dst, ∀ o' ∈ s.outs ts src dst,
        out.stamp s.memory o = out.stamp s.memory o' →
          (ty.eq (s.value out o) (s.value out o') = true ↔ s.value out o = s.value out o')
    | true, none => ∀ o ∈ s.outs ts src dst, ∃ j ∈ s.ins ts src dst,
        inn.stamp s.memory j = out.stamp s.memory o ∧
          s.memory.word (inn.nbrPtr j + 8) = s.memory.word (out.nbrPtr o + 8)
    | false, some ty => ∀ o ∈ s.outs ts src dst, ∃ j ∈ s.ins ts src dst,
        s.value inn j = s.value out o ∧ ty.eq (s.value inn j) (s.value out o) = true ∧
          inn.stamp s.memory j = s.stray ts src ty o ∧
          ∀ j' ∈ s.ins ts src dst, j' < j → ty.eq (s.value inn j') (s.value out o) = true →
            inn.stamp s.memory j' ≠ s.stray ts src ty o
    | false, none => ∀ o ∈ s.outs ts src dst, ∃ j ∈ s.ins ts src dst,
        inn.stamp s.memory j = dst ∧
          s.memory.word (inn.nbrPtr j + 8) = s.memory.word (out.nbrPtr o + 4)

end EdgeMemory

namespace NbrList

variable {m : Memory} {l : NbrList} {nbr i : ℕ}

theorem mem_candidates : i ∈ l.candidates m nbr ↔
    i < l.degree ∧ l.stamp m i ≤ l.timestamp ∧ l.vertex m i = nbr := by
  simp [candidates]

/-- The record at `j` compares equal to the one whose data is at `expected`. -/
def fits (m : Memory) (l : NbrList) (ty : ElementType) (expected j : ℕ) : Bool :=
  m.nbrDataEq ty (l.dataPtr j) expected && decide (0 < l.cfg.tsOffset) &&
    l.stamp m j == m.word (expected + l.cfg.tsOffset - l.cfg.dataOffset)

theorem findExactMatch_eq (expected : ℕ) (ty : ElementType) (is : List ℕ) :
    l.findExactMatch m expected ty is = (is.find? (l.fits m ty expected)).getD int32Max := by
  induction is with
  | nil => rfl
  | cons i is ih =>
    have hfit : l.fits m ty expected i = (m.nbrDataEq ty (l.dataPtr i) expected &&
        decide (0 < l.cfg.tsOffset) && l.stamp m i ==
          m.word (expected + l.cfg.tsOffset - l.cfg.dataOffset)) := rfl
    rw [findExactMatch, find?_cons, ih, hfit, stamp]
    by_cases hdata : m.nbrDataEq ty (l.dataPtr i) expected
    · by_cases hpos : 0 < l.cfg.tsOffset
      · by_cases hts : m.word (l.nbrPtr i + l.cfg.tsOffset) =
            m.word (expected + l.cfg.tsOffset - l.cfg.dataOffset)
        · simp [hdata, hpos, hts]
        · have hne : (m.word (l.nbrPtr i + l.cfg.tsOffset) ==
              m.word (expected + l.cfg.tsOffset - l.cfg.dataOffset)) = false := by simpa using hts
          simp [hdata, hts, hne]
      · simp [hpos]
    · simp [hdata]

theorem fuzzySearchOffset_eq (expected : ℕ) (ty : ElementType) :
    l.fuzzySearchOffset m nbr expected ty =
      (pick (l.fits m ty expected) (l.candidates m nbr)).getD int32Max := by
  unfold fuzzySearchOffset
  match l.candidates m nbr with
  | [] => rfl
  | [_] => rfl
  | i :: j :: rest => exact findExactMatch_eq expected ty (i :: j :: rest)

end NbrList

namespace EdgeMemory

variable {s : EdgeMemory} {ts src dst o j : ℕ}

theorem degree_getEdges_le (g : GenericView) (v : ℕ) : (g.getEdges v).degree ≤ int32Max := by
  unfold GenericView.getEdges
  cases g.lists with
  | single base => exact (by decide : 1 ≤ int32Max)
  | multiple starts degrees => exact Nat.le_of_lt_succ (degrees v).isLt

/-- The incoming record at `j` compares equal to the outgoing one at `o`. -/
def alike (s : EdgeMemory) (ts src dst o j : ℕ) : Bool :=
  (s.inEdges ts dst).fits s.memory s.searchType ((s.outEdges ts src).dataPtr o) j

theorem search_eq : s.search ts src dst o =
    (pick (s.alike ts src dst o) (s.ins ts src dst)).getD int32Max :=
  NbrList.fuzzySearchOffset_eq _ _

theorem search_mem_iff : s.search ts src dst o ∈ s.ins ts src dst ↔
    pick (s.alike ts src dst o) (s.ins ts src dst) = some (s.search ts src dst o) := by
  rw [search_eq]
  cases hpick : pick (s.alike ts src dst o) (s.ins ts src dst) with
  | none =>
    simp only [getD_none, reduceCtorEq, iff_false]
    intro hmem
    have hlt := (NbrList.mem_candidates.mp hmem).1
    have hle := degree_getEdges_le (s.genericView ts s.inMutable s.inLists) dst
    unfold inEdges at hlt
    omega
  | some j => simpa using pick_mem hpick

theorem finds_iff_pick : s.Finds ts src dst ↔ ∀ o ∈ s.outs ts src dst,
    ∃ j, pick (s.alike ts src dst o) (s.ins ts src dst) = some j ∧
      s.tag (s.inEdges ts dst) j = s.tag (s.outEdges ts src) o := by
  constructor
  · rintro ⟨hfinds, -⟩ o ho
    exact ⟨_, search_mem_iff.mp (hfinds o ho).1, (hfinds o ho).2⟩
  · intro hpick
    have hfinds : ∀ o ∈ s.outs ts src dst, s.search ts src dst o ∈ s.ins ts src dst ∧
        s.tag (s.inEdges ts dst) (s.search ts src dst o) = s.tag (s.outEdges ts src) o := by
      intro o ho
      obtain ⟨j, hj, htag⟩ := hpick o ho
      have hsearch : s.search ts src dst o = j := by rw [search_eq, hj, getD_some]
      rw [hsearch]
      exact ⟨pick_mem hj, htag⟩
    refine ⟨hfinds, fun os hos hnodup => ?_⟩
    -- the tag of an edge is that of the record found for it
    refine List.Nodup.of_map (s.tag (s.inEdges ts dst)) ?_
    have htags : (os.map (s.search ts src dst)).map (s.tag (s.inEdges ts dst)) =
        os.map (s.tag (s.outEdges ts src)) := by
      rw [List.map_map]
      exact map_congr_left fun o ho => (hfinds o (hos o ho)).2
    rwa [htags]

theorem finds_of_one (hmirror : s.MirroredAt ts src dst) (hone : (s.outs ts src dst).length ≤ 1) :
    s.Finds ts src dst := by
  rw [finds_iff_pick]
  intro o ho
  have hlen : (s.outs ts src dst).length = 1 := by
    have := length_pos_of_mem ho
    omega
  have hin : (s.ins ts src dst).length = 1 := by
    have := hmirror.length_eq
    rw [length_map, length_map] at this
    omega
  obtain ⟨o', ho'⟩ := length_eq_one_iff.mp hlen
  obtain ⟨j, hj⟩ := length_eq_one_iff.mp hin
  unfold MirroredAt at hmirror
  rw [ho', hj, map_singleton, map_singleton, perm_singleton] at hmirror
  rw [ho', mem_singleton] at ho
  rw [hj, ho]
  exact ⟨j, rfl, (singleton_inj.mp hmirror).symm⟩

theorem cfg_getEdges (g : GenericView) (v : ℕ) : (g.getEdges v).cfg = g.cfg := by
  unfold GenericView.getEdges
  cases g.lists <;> rfl

theorem cfg_outEdges (s : EdgeMemory) (ts src : ℕ) :
    (s.outEdges ts src).cfg = nbrConfig s.outMutable s.element := cfg_getEdges _ _

theorem cfg_inEdges (s : EdgeMemory) (ts dst : ℕ) :
    (s.inEdges ts dst).cfg = nbrConfig s.inMutable s.element := cfg_getEdges _ _

theorem alike_immutable (h : s.inMutable = false) : s.alike ts src dst o j = false := by
  have hts : (s.inEdges ts dst).cfg.tsOffset = 0 := by
    rw [cfg_inEdges, h]
    cases s.element <;> rfl
  simp [alike, NbrList.fits, hts]

theorem not_finds_immutable (h : s.inMutable = false) (hmany : 2 ≤ (s.ins ts src dst).length)
    (ho : o ∈ s.outs ts src dst) : ¬ s.Finds ts src dst := by
  rw [finds_iff_pick]
  intro hpick
  obtain ⟨j, hj, -⟩ := hpick o ho
  rw [pick_of_two hmany] at hj
  have hfit := find?_some hj
  rw [alike_immutable h] at hfit
  cases hfit

section

variable {ty : ElementType}

theorem alike_value (hout : s.outMutable = true) (hin : s.inMutable = true)
    (hty : s.element = some ty) : s.alike ts src dst o j =
      ((s.tag (s.inEdges ts dst) j).1 == (s.tag (s.outEdges ts src) o).1 &&
        ty.eq (s.value (s.inEdges ts dst) j) (s.value (s.outEdges ts src) o)) := by
  have hcfg : (s.inEdges ts dst).cfg = (s.outEdges ts src).cfg := by
    rw [cfg_inEdges, cfg_outEdges, hout, hin]
  have hpos : 0 < (s.outEdges ts src).cfg.tsOffset := by
    rw [cfg_outEdges, hout, hty]
    exact Nat.succ_pos 3
  have haddr : (s.outEdges ts src).dataPtr o + (s.outEdges ts src).cfg.tsOffset -
      (s.outEdges ts src).cfg.dataOffset =
        (s.outEdges ts src).nbrPtr o + (s.outEdges ts src).cfg.tsOffset := by
    unfold NbrList.dataPtr
    omega
  unfold alike NbrList.fits
  rw [hcfg, haddr]
  simp only [tag, value, searchType, hout, hin, hty, hpos, Bool.and_true, decide_true]
  exact Bool.and_comm _ _

/-- Without data the search compares the timestamps and the words behind the records. -/
theorem alike_empty (hout : s.outMutable = true) (hin : s.inMutable = true)
    (hty : s.element = none) : s.alike ts src dst o j = true ↔
      (s.inEdges ts dst).stamp s.memory j = (s.outEdges ts src).stamp s.memory o ∧
        s.memory.word ((s.inEdges ts dst).nbrPtr j + 8) =
          s.memory.word ((s.outEdges ts src).nbrPtr o + 8) := by
  have hcin : (s.inEdges ts dst).cfg = ⟨8, 4, 4⟩ := by rw [cfg_inEdges, hin, hty]; rfl
  have hcout : (s.outEdges ts src).cfg = ⟨8, 4, 4⟩ := by rw [cfg_outEdges, hout, hty]; rfl
  simp only [alike, NbrList.fits, searchType, hty, getD_none, Memory.nbrDataEq,
    ElementType.uint64, NbrList.dataPtr, NbrList.stamp, hcin, hcout,
    Bool.and_eq_true, beq_iff_eq, Memory.bytes_eight_eq_iff, decide_eq_true_eq]
  constructor
  · rintro ⟨⟨⟨hts, hnext⟩, -⟩, -⟩
    exact ⟨hts, hnext⟩
  · rintro ⟨hts, hnext⟩
    exact ⟨⟨⟨hts, hnext⟩, by omega⟩, hts⟩

theorem alike_stray (hout : s.outMutable = false) (hin : s.inMutable = true)
    (hty : s.element = some ty) : s.alike ts src dst o j = true ↔
      ty.eq (s.value (s.inEdges ts dst) j) (s.value (s.outEdges ts src) o) = true ∧
        (s.inEdges ts dst).stamp s.memory j = s.stray ts src ty o := by
  have hcin : (s.inEdges ts dst).cfg.tsOffset = 4 ∧
      (s.inEdges ts dst).cfg.dataOffset = roundUp 8 ty.align := by
    rw [cfg_inEdges, hin, hty]
    exact ⟨rfl, rfl⟩
  have hcout : (s.outEdges ts src).cfg.dataOffset = roundUp 4 ty.align := by
    rw [cfg_outEdges, hout, hty]
    rfl
  have hexp : (s.outEdges ts src).dataPtr o =
      (s.outEdges ts src).nbrPtr o + roundUp 4 ty.align := by rw [NbrList.dataPtr, hcout]
  simp only [alike, NbrList.fits, searchType, hty, value, hcin.1, hcin.2, Bool.and_eq_true, beq_iff_eq, hexp, decide_eq_true_eq]
  constructor
  · rintro ⟨⟨heq, -⟩, hts⟩
    exact ⟨heq, hts⟩
  · rintro ⟨heq, hts⟩
    exact ⟨⟨heq, by omega⟩, hts⟩

theorem alike_neighbor (hout : s.outMutable = false) (hin : s.inMutable = true)
    (hty : s.element = none) (ho : o ∈ s.outs ts src dst) : s.alike ts src dst o j = true ↔
      (s.inEdges ts dst).stamp s.memory j = dst ∧
        s.memory.word ((s.inEdges ts dst).nbrPtr j + 8) =
          s.memory.word ((s.outEdges ts src).nbrPtr o + 4) := by
  have hcin : (s.inEdges ts dst).cfg = ⟨8, 4, 4⟩ := by rw [cfg_inEdges, hin, hty]; rfl
  have hcout : (s.outEdges ts src).cfg = ⟨4, 0, 0⟩ := by rw [cfg_outEdges, hout, hty]; rfl
  have hdst : s.memory.word ((s.outEdges ts src).nbrPtr o) = dst :=
    (NbrList.mem_candidates.mp ho).2.2
  simp only [alike, NbrList.fits, searchType, hty, getD_none, Memory.nbrDataEq,
    ElementType.uint64, NbrList.dataPtr, NbrList.stamp, hcin, hcout, Nat.add_sub_cancel,
    Bool.and_eq_true, beq_iff_eq, Memory.bytes_eight_eq_iff, decide_eq_true_eq, add_zero, hdst]
  constructor
  · rintro ⟨⟨⟨hts, hnext⟩, -⟩, -⟩
    exact ⟨hts, hnext⟩
  · rintro ⟨hts, hnext⟩
    exact ⟨⟨⟨hts, hnext⟩, by omega⟩, hts⟩

/-- Among several edges the search takes the first record that compares equal. -/
theorem finds_iff_find? (hmany : 2 ≤ (s.ins ts src dst).length) :
    s.Finds ts src dst ↔ ∀ o ∈ s.outs ts src dst,
      ∃ j, (s.ins ts src dst).find? (s.alike ts src dst o) = some j ∧
        s.tag (s.inEdges ts dst) j = s.tag (s.outEdges ts src) o := by
  rw [finds_iff_pick]
  simp [pick_of_two hmany]

/-- Where records that compare equal are the same edge, some record has to compare equal. -/
theorem finds_iff_exists (hmany : 2 ≤ (s.ins ts src dst).length)
    (htag : ∀ o ∈ s.outs ts src dst, ∀ j, s.alike ts src dst o j = true →
      s.tag (s.inEdges ts dst) j = s.tag (s.outEdges ts src) o) :
    s.Finds ts src dst ↔ ∀ o ∈ s.outs ts src dst, ∃ j ∈ s.ins ts src dst,
      s.alike ts src dst o j = true := by
  rw [finds_iff_find? hmany]
  refine forall₂_congr fun o ho => ?_
  constructor
  · rintro ⟨j, hj, -⟩
    exact ⟨j, mem_of_find?_eq_some hj, find?_some hj⟩
  · rintro ⟨j, hj, halike⟩
    obtain ⟨k, hk⟩ := isSome_iff_exists.mp (find?_isSome.mpr ⟨j, hj, halike⟩)
    exact ⟨k, hk, htag o ho k (find?_some hk)⟩

theorem finds_value_iff (hout : s.outMutable = true) (hin : s.inMutable = true)
    (hty : s.element = some ty) (hmirror : s.MirroredAt ts src dst)
    (hmany : 2 ≤ (s.ins ts src dst).length) :
    s.Finds ts src dst ↔ ∀ o ∈ s.outs ts src dst, ∀ o' ∈ s.outs ts src dst,
      (s.outEdges ts src).stamp s.memory o = (s.outEdges ts src).stamp s.memory o' →
        (ty.eq (s.value (s.outEdges ts src) o) (s.value (s.outEdges ts src) o') = true ↔
          s.value (s.outEdges ts src) o = s.value (s.outEdges ts src) o') := by
  let same : ℕ × List UInt8 → ℕ × List UInt8 → Bool := fun x y => x.1 == y.1 && ty.eq x.2 y.2
  have hsymm : ∀ x y, same x y → same y x := by
    intro x y h
    simp only [same, Bool.and_eq_true, beq_iff_eq] at h ⊢
    exact ⟨h.1.symm, ty.symm _ _ h.2⟩
  have htrans : ∀ x y z, same x y → same y z → same x z := by
    intro x y z hxy hyz
    simp only [same, Bool.and_eq_true, beq_iff_eq] at hxy hyz ⊢
    exact ⟨hxy.1.trans hyz.1, ty.trans _ _ _ hxy.2 hyz.2⟩
  have hfind : ∀ o, (∃ j, (s.ins ts src dst).find? (s.alike ts src dst o) = some j ∧
      s.tag (s.inEdges ts dst) j = s.tag (s.outEdges ts src) o) ↔
      ((s.ins ts src dst).map (s.tag (s.inEdges ts dst))).find?
        (fun x => same x (s.tag (s.outEdges ts src) o)) = some (s.tag (s.outEdges ts src) o) := by
    intro o
    have halike : s.alike ts src dst o = (fun x => same x (s.tag (s.outEdges ts src) o)) ∘
        s.tag (s.inEdges ts dst) := by
      funext j
      exact alike_value hout hin hty
    rw [find?_map, map_eq_some_iff, halike]
  rw [finds_iff_find? hmany, forall₂_congr fun o _ => hfind o]
  have hself := find?_self_iff hsymm htrans hmirror
  simp only [List.mem_map, forall_exists_index, and_imp, forall_apply_eq_imp_iff₂] at hself
  rw [hself]
  refine forall₂_congr fun o _ => forall₂_congr fun o' _ => ?_
  simp only [same, tag, hout, hin, and_true, Bool.and_eq_true, beq_iff_eq,
    Prod.mk.injEq]
  tauto

theorem finds_empty_iff (hout : s.outMutable = true) (hin : s.inMutable = true)
    (hty : s.element = none) (hmany : 2 ≤ (s.ins ts src dst).length) :
    s.Finds ts src dst ↔ ∀ o ∈ s.outs ts src dst, ∃ j ∈ s.ins ts src dst,
      (s.inEdges ts dst).stamp s.memory j = (s.outEdges ts src).stamp s.memory o ∧
        s.memory.word ((s.inEdges ts dst).nbrPtr j + 8) =
          s.memory.word ((s.outEdges ts src).nbrPtr o + 8) := by
  rw [finds_iff_exists hmany fun o _ j halike => ?_]
  · simp [alike_empty hout hin hty]
  · simp [tag, value, hty, ((alike_empty hout hin hty).mp halike).1]

theorem finds_stray_iff (hout : s.outMutable = false) (hin : s.inMutable = true)
    (hty : s.element = some ty) (hmany : 2 ≤ (s.ins ts src dst).length) :
    s.Finds ts src dst ↔ ∀ o ∈ s.outs ts src dst, ∃ j ∈ s.ins ts src dst,
      s.value (s.inEdges ts dst) j = s.value (s.outEdges ts src) o ∧
        ty.eq (s.value (s.inEdges ts dst) j) (s.value (s.outEdges ts src) o) = true ∧
        (s.inEdges ts dst).stamp s.memory j = s.stray ts src ty o ∧
        ∀ j' ∈ s.ins ts src dst, j' < j →
          ty.eq (s.value (s.inEdges ts dst) j') (s.value (s.outEdges ts src) o) = true →
            (s.inEdges ts dst).stamp s.memory j' ≠ s.stray ts src ty o := by
  rw [finds_iff_find? hmany]
  refine forall₂_congr fun o _ => exists_congr fun j => ?_
  have hsorted : (s.ins ts src dst).Pairwise (· < ·) := pairwise_lt_range.filter _
  rw [find?_eq_some_iff_of_sorted hsorted]
  simp only [← Bool.not_eq_true, alike_stray hout hin hty, tag, hout, Prod.mk.injEq, not_and]
  tauto

theorem finds_neighbor_iff (hout : s.outMutable = false) (hin : s.inMutable = true)
    (hty : s.element = none) (hmany : 2 ≤ (s.ins ts src dst).length) :
    s.Finds ts src dst ↔ ∀ o ∈ s.outs ts src dst, ∃ j ∈ s.ins ts src dst,
      (s.inEdges ts dst).stamp s.memory j = dst ∧
        s.memory.word ((s.inEdges ts dst).nbrPtr j + 8) =
          s.memory.word ((s.outEdges ts src).nbrPtr o + 4) := by
  rw [finds_iff_exists hmany fun o _ j _ => ?_]
  · refine forall₂_congr fun o ho => ?_
    simp [alike_neighbor hout hin hty ho]
  · simp [tag, value, hty, hout]

end

/-- Where both CSRs hold the same edges from `src` to `dst`, a search finds the other end of each
of them exactly if they can be told apart. -/
theorem finds_iff_told (hmirror : s.MirroredAt ts src dst) :
    s.Finds ts src dst ↔ s.Told ts src dst := by
  by_cases hone : (s.outs ts src dst).length ≤ 1
  · exact ⟨fun _ => .inl hone, fun _ => finds_of_one hmirror hone⟩
  · have hmany : 2 ≤ (s.ins ts src dst).length := by
      have := hmirror.length_eq
      rw [length_map, length_map] at this
      omega
    rw [Told, or_iff_right hone]
    cases hin : s.inMutable with
    | false =>
      obtain ⟨o, ho⟩ := exists_mem_of_length_pos (l := s.outs ts src dst) (by omega)
      simp only [Bool.false_eq_true, false_and, iff_false]
      exact not_finds_immutable hin hmany ho
    | true =>
      simp only [true_and]
      cases hout : s.outMutable <;> cases hty : s.element
      · exact finds_neighbor_iff hout hin hty hmany
      · exact finds_stray_iff hout hin hty hmany
      · exact finds_empty_iff hout hin hty hmany
      · exact finds_value_iff hout hin hty hmirror hmany

end EdgeMemory

def Memory.ofWords (words : List ℕ) : Memory := fun a => (words.flatMap (leBytes 4)).getD a 0

def twoValues : EdgeMemory where
  memory := .ofWords [1, 1, 5, 0, 1, 1, 7, 0, 0, 1, 5, 0, 0, 1, 7, 0]
  element := some .uint64
  outMutable := true
  inMutable := true
  outLists := .multiple (fun _ => 0) fun v => if v = 0 then 2 else 0
  inLists := .multiple (fun _ => 32) fun v => if v = 1 then 2 else 0

theorem finds_twoValues : twoValues.MirroredAt 1 0 1 ∧ (twoValues.outs 1 0 1).length = 2 ∧
    twoValues.Finds 1 0 1 := by
  have hmirror : twoValues.MirroredAt 1 0 1 := by
    unfold EdgeMemory.MirroredAt
    decide +kernel
  refine ⟨hmirror, by decide +kernel, (EdgeMemory.finds_iff_told hmirror).mpr (.inr ⟨rfl, ?_⟩)⟩
  intro _ _ o _ o' _ _
  exact beq_iff_eq

def twoBareEdges : EdgeMemory where
  memory := .ofWords [1, 1, 1, 2, 0, 1, 0, 2]
  element := none
  outMutable := true
  inMutable := true
  outLists := .multiple (fun _ => 0) fun v => if v = 0 then 2 else 0
  inLists := .multiple (fun _ => 16) fun v => if v = 1 then 2 else 0

/-- The search compares eight bytes from the timestamp on. Behind the first outgoing record stands
the neighbor 1, behind the first incoming one the neighbor 0: the search fails. -/
theorem bare_edges_not_found : twoBareEdges.MirroredAt 2 0 1 ∧
    twoBareEdges.outs 2 0 1 = [0, 1] ∧ twoBareEdges.ins 2 0 1 = [0, 1] ∧
    twoBareEdges.search 2 0 1 0 = int32Max ∧ ¬ twoBareEdges.Finds 2 0 1 := by
  have houts : twoBareEdges.outs 2 0 1 = [0, 1] := by decide +kernel
  have hins : twoBareEdges.ins 2 0 1 = [0, 1] := by decide +kernel
  have hsearch : twoBareEdges.search 2 0 1 0 = int32Max := by decide +kernel
  refine ⟨?_, houts, hins, hsearch, ?_⟩
  · unfold EdgeMemory.MirroredAt
    decide +kernel
  · rintro ⟨hfinds, -⟩
    have hmem := (hfinds 0 (by rw [houts]; exact mem_cons_self)).1
    exact absurd hmem (by decide)

end Neug.Storage
