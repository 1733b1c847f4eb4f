import Neug.Storage.CsrMirror
import Neug.Storage.EdgeTable

/-! The search for the other end of an edge. The two CSRs keep no pointers to each other: the
entry of the other side is found by its neighbor, and among parallel edges by data and
timestamp. -/
namespace Neug.Storage
open List Option

variable {V : Type}

theorem length_candidates (l : List (Nbr (EdgeData V))) {t : ℕ} (ht : t < invalidTimestamp)
    (nbr : ℕ) :
    (candidates l t nbr).length = (Multiset.filter (fun x => x.1 ≤ t) (liveTo l nbr)).card := by
  unfold candidates
  rw [MutableCsr.length_offsets]
  induction l with
  | nil => rfl
  | cons n l ih =>
    rw [countP_cons, liveTo_cons, Multiset.filter_add, Multiset.card_add, add_comm]
    congr 1
    unfold Nbr.live Nbr.visible
    by_cases hnbr : n.neighbor = nbr
    · by_cases hts : n.timestamp ≤ t
      · have hne : n.timestamp ≠ invalidTimestamp := by omega
        simp [hnbr, hts, hne, Multiset.filter_singleton]
      · by_cases hne : n.timestamp = invalidTimestamp
        · simp [hne, not_le.mpr ht]
        · simp [hnbr, hts, hne, Multiset.filter_singleton]
    · simp [hnbr]

theorem mem_candidates {l : List (Nbr (EdgeData V))} {t nbr i : ℕ} :
    i ∈ candidates l t nbr ↔ ∃ n, l[i]? = some n ∧ n.timestamp ≤ t ∧ n.neighbor = nbr := by
  unfold candidates
  rw [MutableCsr.mem_offsets]
  simp [Nbr.visible]

variable {a b : MutableCsr (EdgeData V)} {v i t : ℕ} {n : Nbr (EdgeData V)}

theorem exists_candidate (h : a.Mirrored b) (ht : t < invalidTimestamp)
    (hn : (a.list v)[i]? = some n) (hvis : n.timestamp ≤ t) :
    ∃ k ∈ candidates (b.list n.neighbor) t v, (b.list n.neighbor)[k]? = some (n.image v) := by
  have hlive := MutableCsr.mem_live_of_getElem? hn (by omega)
  rw [h v n.neighbor] at hlive
  obtain ⟨m, hm, hnbr, -, heq⟩ := mem_liveTo.mp hlive
  obtain ⟨k, hk⟩ := getElem?_of_mem hm
  have hmn : m = n.image v := by
    obtain ⟨hts, hdata⟩ := Prod.mk.inj heq
    cases m
    simp only [Nbr.image, Nbr.mk.injEq]
    exact ⟨hnbr, hts.symm, hdata.symm⟩
  rw [hmn] at hk
  exact ⟨k, mem_candidates.mpr ⟨_, hk, hvis, rfl⟩, hk⟩

section

variable [PropertyValue V]

/-- A value compares equal to `v` exactly when it is `v`. -/
def Comparable (v : V) : EdgeData V → Prop
  | .value w => PropertyValue.eq w v = true ↔ w = v
  | _ => True

/-- A search tells the data of a visible entry `n` from that of the parallel ones. -/
def ToldApart (l : List (Nbr (EdgeData V))) (t : ℕ) (n : Nbr (EdgeData V)) : EdgeData V → Prop
  | .empty => (candidates l t n.neighbor).length ≤ 1
  | .value v => ∀ m ∈ l, m.timestamp ≤ t → m.neighbor = n.neighbor → Comparable v m.data
  | .row _ => True

/-- The visible entries of a list can be told apart by a search: parallel edges without data do
not occur, and values of parallel edges are equal exactly when they compare equal. -/
def Separable (l : List (Nbr (EdgeData V))) (t : ℕ) : Prop :=
  ∀ n ∈ l, n.timestamp ≤ t → ToldApart l t n n.data

instance [DecidableEq V] (v : V) : (d : EdgeData V) → Decidable (Comparable v d)
  | .value w => inferInstanceAs (Decidable (PropertyValue.eq w v = true ↔ w = v))
  | .empty | .row _ => .isTrue trivial

instance [DecidableEq V] (l : List (Nbr (EdgeData V))) (t : ℕ) (n : Nbr (EdgeData V)) :
    (d : EdgeData V) → Decidable (ToldApart l t n d)
  | .empty => inferInstanceAs (Decidable ((candidates l t n.neighbor).length ≤ 1))
  | .value v => inferInstanceAs (Decidable (∀ m ∈ l, m.timestamp ≤ t →
      m.neighbor = n.neighbor → Comparable v m.data))
  | .row _ => .isTrue trivial

instance [DecidableEq V] (l : List (Nbr (EdgeData V))) (t : ℕ) : Decidable (Separable l t) :=
  inferInstanceAs (Decidable (∀ n ∈ l, n.timestamp ≤ t → ToldApart l t n n.data))

variable {ps : List (PropertyDef V)}

/-- An exact match is a candidate that compares equal; without one the search fails. -/
theorem findExactMatch_cases {l : List (Nbr (EdgeData V))} {past : ℕ}
    {e : Probe V} {is : List ℕ} {j : ℕ} (h : findExactMatch ps l past e is = some j) :
    (j ∈ is ∧ ∃ n, l[j]? = some n ∧ nbrDataEq ps (probe l past j n) e = some true ∧
      n.timestamp = e.timestamp) ∨
    (∀ i ∈ is, ∃ n, l[i]? = some n ∧ ∃ same, nbrDataEq ps (probe l past i n) e = some same ∧
      ¬ (same = true ∧ n.timestamp = e.timestamp)) := by
  induction is with
  | nil => exact .inr fun i hi => absurd hi not_mem_nil
  | cons i is ih =>
    obtain ⟨n, hn, h⟩ := bind_eq_some_iff.mp h
    obtain ⟨same, hsame, h⟩ := bind_eq_some_iff.mp h
    split_ifs at h with hmatch
    · simp only [Bool.and_eq_true, beq_iff_eq] at hmatch
      obtain rfl : i = j := by simpa using h
      exact .inl ⟨mem_cons_self, n, hn, by rw [hsame, hmatch.1], hmatch.2⟩
    · simp only [Bool.and_eq_true, beq_iff_eq] at hmatch
      rcases ih h with ⟨hj, hfound⟩ | hnone
      · exact .inl ⟨mem_cons_of_mem _ hj, hfound⟩
      · refine .inr fun k hk => ?_
        rcases mem_cons.mp hk with rfl | hk
        · exact ⟨n, hn, same, hsame, hmatch⟩
        · exact hnone k hk

section

variable (h : a.Mirrored b) (ht : t < invalidTimestamp) (hsep : Separable (a.list v) t)
  (hn : (a.list v)[i]? = some n) (hvis : n.timestamp ≤ t)
include h ht hsep hn hvis

theorem eq_image_of_match (hmany : 1 < (candidates (b.list n.neighbor) t v).length)
    {past past' j : ℕ} {m : Nbr (EdgeData V)}
    (hj : j ∈ candidates (b.list n.neighbor) t v) (hm : (b.list n.neighbor)[j]? = some m)
    (hts : m.timestamp = n.timestamp)
    (heq : nbrDataEq ps (probe (b.list n.neighbor) past j m) (probe (a.list v) past' i n) =
      some true) : m = n.image v := by
  have hdata : m.data = n.data := by
    have hnsep := hsep n (mem_of_getElem? hn) hvis
    obtain ⟨m', hm', hmvis, hmnbr⟩ := mem_candidates.mp hj
    obtain rfl : m = m' := by rw [hm] at hm'; exact some.inj hm'
    unfold nbrDataEq probe at heq
    cases hnd : n.data with
    | empty =>
      simp only [hnd, ToldApart] at hnsep
      rw [length_candidates _ ht] at hmany hnsep
      have hflip : liveTo (b.list n.neighbor) v = liveTo (a.list v) n.neighbor :=
        (h v n.neighbor).symm
      rw [hflip] at hmany
      omega
    | row k =>
      cases hmd : m.data <;> simp [hnd, hmd] at heq
      rw [heq]
    | value x =>
      cases hmd : m.data with
      | empty => simp [hnd, hmd] at heq
      | row k => simp [hnd, hmd] at heq
      | value w =>
        -- the value has to be compared on the side where the list is known to be separable
        have hlive := MutableCsr.mem_live_of_getElem? hm (by omega)
        rw [hmnbr, ← h v n.neighbor] at hlive
        obtain ⟨n₂, hn₂, hnbr₂, -, heq₂⟩ := mem_liveTo.mp hlive
        obtain ⟨hts₂, hdata₂⟩ := Prod.mk.inj heq₂
        simp only [hnd] at hnsep
        have hcmp := hnsep n₂ hn₂ (by omega) hnbr₂
        simp only [← hdata₂, hmd] at hcmp
        simp only [hnd, hmd, some.injEq] at heq
        rw [hcmp.mp heq]
  obtain ⟨m', hm', -, hnbr⟩ := mem_candidates.mp hj
  obtain rfl : m = m' := by rw [hm] at hm'; exact some.inj hm'
  cases m
  simp only [Nbr.image, Nbr.mk.injEq]
  exact ⟨hnbr, hts, hdata⟩

/-- The search for the other end of a visible edge of a separable list finds its image. -/
theorem fuzzySearchOffset_image {past past' j : ℕ}
    (hj : fuzzySearchOffset ps (b.list n.neighbor) past t v (probe (a.list v) past' i n) =
      some j) : (b.list n.neighbor)[j]? = some (n.image v) := by
  obtain ⟨k, hk, himg⟩ := exists_candidate h ht hn hvis
  unfold fuzzySearchOffset at hj
  split at hj
  · next hnil => simp [hnil] at hk
  · next i' hone =>
    rw [hone, mem_singleton] at hk
    obtain rfl : i' = j := by simpa using hj
    rw [← hk]
    exact himg
  · next is hnil hone =>
    have hmany : 1 < (candidates (b.list n.neighbor) t v).length := by
      match hc : candidates (b.list n.neighbor) t v with
      | [] => exact absurd hc hnil
      | [x] => exact absurd hc (hone x)
      | _ :: _ :: _ => simp
    rcases findExactMatch_cases hj with ⟨hmem, m, hm, heq, hts⟩ | hnone
    · rw [hm, eq_image_of_match h ht hsep hn hvis hmany hmem hm hts heq]
    · -- the image itself compares equal
      exfalso
      obtain ⟨m, hm, same, hsame, hno⟩ := hnone k hk
      obtain rfl : n.image v = m := by rw [himg] at hm; exact some.inj hm
      have hnsep := hsep n (mem_of_getElem? hn) hvis
      refine hno ⟨?_, rfl⟩
      unfold nbrDataEq probe Nbr.image at hsame
      cases hnd : n.data with
      | empty =>
        simp only [hnd, ToldApart] at hnsep
        rw [length_candidates _ ht] at hmany hnsep
        have hflip : liveTo (b.list n.neighbor) v = liveTo (a.list v) n.neighbor :=
          (h v n.neighbor).symm
        rw [hflip] at hmany
        omega
      | row r => simpa [hnd] using hsame
      | value x =>
        simp only [hnd] at hnsep
        have hrefl := hnsep n (mem_of_getElem? hn) hvis rfl
        simp only [hnd, Comparable] at hrefl
        simp only [hnd, some.injEq] at hsame
        rw [← hsame]
        exact hrefl.mpr trivial

end

theorem Separable.set_tombstone {l : List (Nbr (EdgeData V))} {ts i : ℕ} {n : Nbr (EdgeData V)}
    (h : Separable l ts) (hts : ts < invalidTimestamp) (hn : l[i]? = some n) :
    Separable (l.set i n.tombstone) ts := by
  have hold : ∀ m ∈ l.set i n.tombstone, m.timestamp ≤ ts → m ∈ l := by
    intro m hm hvis
    rcases mem_or_eq_of_mem_set hm with hm | rfl
    · exact hm
    · simp only [Nbr.tombstone] at hvis
      omega
  have hfewer : ∀ w, (candidates (l.set i n.tombstone) ts w).length ≤
      (candidates l ts w).length := by
    intro w
    have hset := liveTo_set hn n.tombstone w
    rw [Nbr.live_tombstone, add_zero] at hset
    rw [length_candidates _ hts, length_candidates _ hts, ← hset, Multiset.filter_add,
      Multiset.card_add]
    exact Nat.le_add_right _ _
  intro m hm hvis
  have hsep := h m (hold m hm hvis) hvis
  cases hd : m.data with
  | empty =>
    simp only [hd] at hsep
    exact (hfewer _).trans hsep
  | row k => trivial
  | value v =>
    simp only [hd] at hsep
    exact fun m' hm' hvis' => hsep m' (hold m' hm' hvis') hvis'

end

end Neug.Storage
