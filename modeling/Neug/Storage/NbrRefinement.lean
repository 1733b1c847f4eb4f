import Neug.Lib.PrefixCode
import Neug.Storage.EdgeDeletion
import Neug.Storage.NbrSearch

/-! The search of the edge table model is the search on memory: lists of entries stand for the
neighbor records of two mutable CSRs. -/
namespace Neug.Storage
open Neug.Lib List Option Bool

variable {V : Type}

def Encoded [PropertyValue V] (element : Option ElementType) (encode : V → List UInt8)
    (bs : List UInt8) : EdgeData V → Prop
  | .empty => element = none
  | .value v => bs = encode v ∧ ∃ ty, element = some ty ∧
      ∀ a b, ty.eq (encode a) (encode b) = PropertyValue.eq a b
  | .row k => bs = leBytes 8 k ∧ element = some .uint64 ∧ k < 256 ^ 8

/-- A list of entries stands in memory, with the word `past` behind it. -/
structure InMemory [PropertyValue V] (s : EdgeMemory) (encode : V → List UInt8)
    (l : List (Nbr (EdgeData V))) (past : ℕ) (records : NbrList) : Prop where
  degree : records.degree = l.length
  vertex : ∀ i n, l[i]? = some n → records.vertex s.memory i = n.neighbor
  stamp : ∀ i n, l[i]? = some n → records.stamp s.memory i = n.timestamp
  value : ∀ i n, l[i]? = some n → Encoded s.element encode (s.value records i) n.data
  past : s.memory.word (records.nbrPtr l.length) = past

variable [PropertyValue V] {s : EdgeMemory} {encode : V → List UInt8} {ts : ℕ}

theorem InMemory.candidates_eq {l : List (Nbr (EdgeData V))} {past : ℕ} {records : NbrList}
    (h : InMemory s encode l past records) (hts : records.timestamp = ts) (nbr : ℕ) :
    records.candidates s.memory nbr = candidates l ts nbr := by
  unfold NbrList.candidates candidates
  rw [offsets_eq_filter, h.degree]
  apply filter_congr
  intro i hi
  have hlt : i < l.length := mem_range.mp hi
  have hn : l[i]? = some l[i] := getElem?_eq_getElem hlt
  rw [h.stamp i _ hn, h.vertex i _ hn, hts, hn]
  rfl

theorem InMemory.next_eq {l : List (Nbr (EdgeData V))} {past i : ℕ} {records : NbrList}
    (h : InMemory s encode l past records) {n : Nbr (EdgeData V)} (hn : l[i]? = some n) :
    s.memory.word (records.nbrPtr (i + 1)) = (probe l past i n).next := by
  unfold probe
  cases hnext : l[i + 1]? with
  | some m => exact h.vertex (i + 1) m hnext
  | none =>
    have hlen : i + 1 = l.length := by
      have hlt := (List.getElem?_eq_some_iff.mp hn).1
      have hle := getElem?_eq_none_iff.mp hnext
      omega
    rw [hlen]
    exact h.past

namespace EdgeTable

variable {t : EdgeTable V} {past : Past} {src dst o j : ℕ}

section

variable (hout : s.outMutable = true) (hin : s.inMutable = true)
  (houts : InMemory s encode (t.outCsr.list src) (past.out src) (s.outEdges ts src))
  (hins : InMemory s encode (t.inCsr.list dst) (past.inn dst) (s.inEdges ts dst))
include hout hin houts hins

theorem serves_eq_alike_bytes {n m : Nbr (EdgeData V)} (hn : (t.outCsr.list src)[o]? = some n)
    (hm : (t.inCsr.list dst)[j]? = some m) (hnfits : Fits t.properties n.data)
    (hmfits : Fits t.properties m.data) : t.serves past src dst o j = s.alike ts src dst o j := by
  have hserves : t.serves past src dst o j =
      (probe (t.inCsr.list dst) (past.inn dst) j m).same t.properties
        (probe (t.outCsr.list src) (past.out src) o n) := by
    simp [serves, probeAt, fitsAt, hn, hm]
  have hnval := houts.value o n hn
  have hmval := hins.value j m hm
  have htags : ((s.tag (s.inEdges ts dst) j).1 == (s.tag (s.outEdges ts src) o).1) =
      (m.timestamp == n.timestamp) := by
    simp [EdgeMemory.tag, hout, hin, hins.stamp j m hm, houts.stamp o n hn]
  rw [hserves, Bool.eq_iff_iff, Probe.same_iff]
  cases hnd : n.data with
  | empty =>
    have hempty : t.properties = [] := by simpa [hnd, Fits] using hnfits
    have hmd : m.data = .empty := by
      cases hmd : m.data <;> simp_all [Fits, isBundled]
    have hnone : s.element = none := by simpa [hnd, Encoded] using hnval
    have hptr (records : NbrList) i (h : records.cfg = nbrConfig true none) :
        records.nbrPtr i + 8 = records.nbrPtr (i + 1) := by
      simp only [NbrList.nbrPtr, h, nbrConfig, ↓reduceIte]
      omega
    rw [EdgeMemory.alike_empty hout hin hnone, hins.stamp j m hm, houts.stamp o n hn,
      hptr _ j (by rw [EdgeMemory.cfg_inEdges, hin, hnone]),
      hptr _ o (by rw [EdgeMemory.cfg_outEdges, hout, hnone]), hins.next_eq hm, houts.next_eq hn]
    simp only [nbrDataEq, probe, hnd, hmd, hempty, isEmpty_nil, ↓reduceIte,
      some.injEq, and_eq_true, beq_iff_eq]
    tauto
  | value v =>
    obtain ⟨w, hmd⟩ : ∃ w, m.data = .value w := by
      cases hmd : m.data <;> simp_all [Fits]
    simp only [hnd, hmd] at hnval hmval
    obtain ⟨hnbytes, ty, hty, heq⟩ := hnval
    rw [EdgeMemory.alike_value hout hin hty, htags, hnbytes, hmval.1, heq]
    simp only [nbrDataEq, probe, hnd, hmd, some.injEq, and_eq_true, beq_iff_eq]
    exact and_comm
  | row k =>
    obtain ⟨i, hmd⟩ : ∃ i, m.data = .row i := by
      cases hmd : m.data <;> simp_all [Fits, isBundled]
    simp only [hnd, hmd] at hnval hmval
    obtain ⟨hnbytes, hty, hk⟩ := hnval
    have hsame : leBytes 8 i = leBytes 8 k ↔ i = k := ⟨leBytes_injOn hmval.2.2 hk, congrArg _⟩
    rw [EdgeMemory.alike_value hout hin hty, htags, hnbytes, hmval.1]
    simp only [nbrDataEq, probe, hnd, hmd, some.injEq, and_eq_true, beq_iff_eq,
      ElementType.uint64, hsame]
    exact and_comm

theorem searchInOffset_eq_search (hofits : ∀ n ∈ t.outCsr.list src, Fits t.properties n.data)
    (hifits : ∀ n ∈ t.inCsr.list dst, Fits t.properties n.data) (hdst : dst < t.inCsr.size)
    {n : Nbr (EdgeData V)} (hn : (t.outCsr.list src)[o]? = some n) (hnbr : n.neighbor = dst) :
    t.searchInOffset past src o ts n = some (s.search ts src dst o) := by
  have hts : (s.inEdges ts dst).timestamp = ts := by
    unfold EdgeMemory.inEdges GenericView.getEdges EdgeMemory.genericView
    cases s.inLists <;> simp [hin]
  have hprobe : probeAt (t.outCsr.list src) (past.out src) o =
      some (probe (t.outCsr.list src) (past.out src) o n) := by
    rw [probeAt, hn, map_some]
  rw [searchInOffset, hnbr, if_neg (by omega),
    fuzzySearchOffset_eq hifits (hofits n (mem_of_getElem? hn)), EdgeMemory.search_eq,
    EdgeMemory.ins, hins.candidates_eq hts]
  congr 2
  apply pick_congr
  intro j hj
  obtain ⟨m, hm, -⟩ := mem_candidates.mp hj
  rw [← serves_eq_alike_bytes hout hin houts hins hn hm (hofits n (mem_of_getElem? hn))
    (hifits m (mem_of_getElem? hm)), serves, hprobe, any_some]

end

end EdgeTable

end Neug.Storage
