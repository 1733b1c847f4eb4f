import Neug.Lib.WeakOrder

/-! Priority queues as a standard library specifies them. The greatest element is taken first, and
which of several greatest elements that is stays open. -/
namespace Neug.Lib
open List Option

structure PriorityQueue (α : Type) (r : α → α → Prop) where
  Queue : Type
  empty : Queue
  elems : Queue → List α
  push : Queue → α → Queue
  pop : Queue → Option (α × Queue)
  elems_empty : elems empty = []
  elems_push : ∀ q a, (elems (push q a)).Perm (a :: elems q)
  pop_eq_none : ∀ q, pop q = none ↔ elems q = []
  elems_pop : ∀ q a q', pop q = some (a, q') → (elems q).Perm (a :: elems q')
  pop_greatest : ∀ q a q', pop q = some (a, q') → ∀ b ∈ elems q', ¬ r a b

namespace PriorityQueue

variable {α : Type} {r : α → α → Prop}

def sortedList (r : α → α → Prop) [DecidableRel r] [IsStrictWeakOrder α r] :
    PriorityQueue α r where
  Queue := { l : List α // Ascending (Function.swap r) l }
  empty := ⟨[], List.Pairwise.nil⟩
  elems l := l.1
  push l a := ⟨l.1.orderedInsert (fun x y => ¬ r x y) a, by
    have htotal : Std.Total fun x y => ¬ r x y := ⟨fun x y => by
      by_contra! h
      exact irrefl x (IsTrans.trans _ _ _ h.1 h.2)⟩
    have htrans : IsTrans α fun x y => ¬ r x y := ⟨fun _ _ _ => not_rel_trans⟩
    exact List.Pairwise.orderedInsert a l.1 l.2⟩
  pop l :=
    match l with
    | ⟨[], _⟩ => none
    | ⟨a :: l, h⟩ => some (a, ⟨l, List.Pairwise.of_cons h⟩)
  elems_empty := rfl
  elems_push l a := List.perm_orderedInsert _ a l.1
  pop_eq_none := by
    rintro ⟨_ | ⟨a, l⟩, h⟩ <;> simp
  elems_pop := by
    rintro ⟨_ | ⟨b, l⟩, h⟩ a q' hpop
    · cases hpop
    · obtain ⟨rfl, rfl⟩ := Prod.mk.inj (Option.some.inj hpop)
      exact List.Perm.refl _
  pop_greatest := by
    rintro ⟨_ | ⟨b, l⟩, h⟩ a q' hpop
    · cases hpop
    · obtain ⟨rfl, rfl⟩ := Prod.mk.inj (Option.some.inj hpop)
      exact (List.pairwise_cons.mp h).1

variable (pq : PriorityQueue α r)

def size (q : pq.Queue) : ℕ := (pq.elems q).length

theorem size_pop {q q' : pq.Queue} {a : α} (h : pq.pop q = some (a, q')) :
    pq.size q = pq.size q' + 1 := (pq.elems_pop q a q' h).length_eq

theorem size_push (q : pq.Queue) (a : α) : pq.size (pq.push q a) = pq.size q + 1 :=
  (pq.elems_push q a).length_eq

/-- Pushes an element and takes the greatest one out if there are then more than `bound`. -/
def offer (bound : ℕ) (q : pq.Queue) (a : α) : pq.Queue :=
  let q := pq.push q a
  if bound < pq.size q then ((pq.pop q).map Prod.snd).getD q else q

/-- Takes the greatest element out a number of times; there is none to take from an empty queue. -/
def popMany : ℕ → pq.Queue → Option pq.Queue
  | 0, q => some q
  | k + 1, q => (pq.pop q).bind fun p => popMany k p.2

def drain : ℕ → pq.Queue → List α → List α
  | 0, _, acc => acc
  | k + 1, q, acc =>
    match pq.pop q with
    | none => acc
    | some (a, q') => drain k q' (a :: acc)

variable {pq} {q q' : pq.Queue} {seen dropped : List α}

/-- The queue holds the `bound` smallest of the elements seen; the others were dropped. -/
structure Keeps (pq : PriorityQueue α r) (bound : ℕ) (q : pq.Queue) (seen dropped : List α) :
    Prop where
  perm : seen.Perm (pq.elems q ++ dropped)
  below : ∀ a ∈ pq.elems q, ∀ b ∈ dropped, ¬ r b a
  size_le : pq.size q ≤ bound
  full : dropped ≠ [] → pq.size q = bound

theorem keeps_empty (pq : PriorityQueue α r) (bound : ℕ) : Keeps pq bound pq.empty [] [] where
  perm := by rw [pq.elems_empty]; exact .refl _
  below := by simp
  size_le := by simp [size, pq.elems_empty]
  full h := absurd rfl h

variable {k bound : ℕ}

theorem Keeps.offer [IsStrictWeakOrder α r] (h : Keeps pq bound q seen dropped)
    (a : α) : ∃ dropped', Keeps pq bound (pq.offer bound q a) (a :: seen) dropped' := by
  have hpush := pq.elems_push q a
  have hseen : (a :: seen).Perm (pq.elems (pq.push q a) ++ dropped) :=
    (h.perm.cons a).trans (hpush.symm.append_right dropped)
  have hsize := pq.size_push q a
  by_cases hbig : bound < pq.size (pq.push q a)
  · have hfull : pq.size q = bound := le_antisymm h.size_le (by omega)
    cases hpop : pq.pop (pq.push q a) with
    | none =>
      have hnil := (pq.pop_eq_none _).mp hpop
      rw [size, hnil] at hbig
      exact absurd hbig (Nat.not_lt_zero _)
    | some p =>
      obtain ⟨c, q'⟩ := p
      have hmoved := pq.elems_pop _ c q' hpop
      have hless := pq.size_pop hpop
      have hoffer : pq.offer bound q a = q' := by simp [PriorityQueue.offer, hbig, hpop]
      rw [hoffer]
      refine ⟨c :: dropped, ⟨?_, ?_, by omega, fun _ => by omega⟩⟩
      · exact hseen.trans ((hmoved.append_right dropped).trans perm_middle.symm)
      · intro x hx b hb
        have hcx := pq.pop_greatest _ c q' hpop x hx
        rcases mem_cons.mp hb with rfl | hb
        · exact hcx
        · -- the element taken out was in the queue before, or the new one was dropped at once
          rcases mem_cons.mp (hpush.subset (hmoved.symm.subset (mem_cons_self ..))) with rfl | hc
          · exact h.below x ((hmoved.symm.trans hpush).cons_inv.subset hx) b hb
          · exact not_rel_trans (h.below c hc b hb) hcx
  · have hoffer : pq.offer bound q a = pq.push q a := by simp [PriorityQueue.offer, hbig]
    rw [hoffer]
    have hnil : dropped = [] := by
      by_contra hne
      have := h.full hne
      omega
    subst hnil
    exact ⟨[], ⟨hseen, by simp, by omega, fun hne => absurd rfl hne⟩⟩

theorem Keeps.foldl_offer [IsStrictWeakOrder α r] (l : List α) (h : Keeps pq bound q seen dropped) :
    ∃ dropped', Keeps pq bound (l.foldl (pq.offer bound) q) (l.reverse ++ seen) dropped' := by
  induction l generalizing q seen dropped with
  | nil => exact ⟨dropped, h⟩
  | cons a l ih =>
    obtain ⟨dropped', h'⟩ := h.offer a
    rw [reverse_cons, append_assoc]
    exact ih h'

theorem Keeps.size_eq (h : Keeps pq bound q seen dropped) : pq.size q = min bound seen.length := by
  have hlen := h.perm.length_eq
  rw [length_append] at hlen
  have hle := h.size_le
  by_cases hnil : dropped = []
  · subst hnil
    simp only [length_nil, size] at *
    omega
  · have hfull := h.full hnil
    simp only [size] at *
    omega

theorem popMany_eq_none_iff : pq.popMany k q = none ↔ pq.size q < k := by
  induction k generalizing q with
  | zero => simp [popMany]
  | succ k ih =>
    cases hpop : pq.pop q with
    | none =>
      have hnil := (pq.pop_eq_none q).mp hpop
      simp [popMany, hpop, size, hnil]
    | some p =>
      have hsize := pq.size_pop hpop
      simp only [popMany, hpop, bind_some, ih]
      omega

theorem exists_taken [IsStrictWeakOrder α r] (h : pq.popMany k q = some q') :
    ∃ taken, (pq.elems q).Perm (pq.elems q' ++ taken) ∧ taken.length = k ∧
      ∀ a ∈ pq.elems q', ∀ b ∈ taken, ¬ r b a := by
  induction k generalizing q with
  | zero =>
    cases h
    exact ⟨[], by simp, rfl, by simp⟩
  | succ k ih =>
    obtain ⟨⟨c, p⟩, hpop, hrest⟩ := bind_eq_some_iff.mp h
    obtain ⟨taken, hperm, hlen, hbelow⟩ := ih hrest
    refine ⟨c :: taken, ?_, by rw [length_cons, hlen], ?_⟩
    · exact ((pq.elems_pop q c p hpop).trans (hperm.cons c)).trans perm_middle.symm
    · intro a ha b hb
      rcases mem_cons.mp hb with rfl | hb
      · exact pq.pop_greatest q b p hpop a (hperm.symm.subset (mem_append_left _ ha))
      · exact hbelow a ha b hb

theorem drain_spec [IsStrictWeakOrder α r] {acc : List α} (hk : pq.size q ≤ k)
    (hacc : Ascending r acc) (hbelow : ∀ a ∈ pq.elems q, ∀ b ∈ acc, ¬ r b a) :
    (pq.drain k q acc).Perm (pq.elems q ++ acc) ∧ Ascending r (pq.drain k q acc) := by
  induction k generalizing q acc with
  | zero =>
    have hnil : pq.elems q = [] := length_eq_zero_iff.mp (Nat.le_zero.mp hk)
    rw [hnil]
    exact ⟨.refl _, hacc⟩
  | succ k ih =>
    cases hpop : pq.pop q with
    | none =>
      rw [drain, hpop, (pq.pop_eq_none q).mp hpop]
      exact ⟨.refl _, hacc⟩
    | some p =>
      obtain ⟨c, q'⟩ := p
      have hmoved := pq.elems_pop q c q' hpop
      have hsize := pq.size_pop hpop
      have hacc' : Ascending r (c :: acc) :=
        pairwise_cons.mpr ⟨hbelow c (hmoved.symm.subset (mem_cons_self ..)), hacc⟩
      have hbelow' : ∀ a ∈ pq.elems q', ∀ b ∈ c :: acc, ¬ r b a := by
        intro a ha b hb
        rcases mem_cons.mp hb with rfl | hb
        · exact pq.pop_greatest q b q' hpop a ha
        · exact hbelow a (hmoved.symm.subset (mem_cons_of_mem _ ha)) b hb
      obtain ⟨hperm, hasc⟩ := ih (by omega) hacc' hbelow'
      simp only [drain, hpop]
      refine ⟨hperm.trans ?_, hasc⟩
      exact perm_middle.trans (hmoved.symm.append_right acc)

/-- Keeping the `bound` smallest, taking the `k` greatest of them out and emptying the queue gives
the front of a sorted arrangement. -/
theorem exists_ascending_drain [IsStrictWeakOrder α r] (pq : PriorityQueue α r)
    (l : List α) (hk : k ≤ min bound l.length) :
    ∃ q s, pq.popMany k (l.foldl (pq.offer bound) pq.empty) = some q ∧ s.Perm l ∧
      Ascending r s ∧ pq.drain (pq.size q) q [] = s.take (min bound l.length - k) := by
  obtain ⟨dropped, hkeeps⟩ := (keeps_empty pq bound).foldl_offer l
  have hsize := hkeeps.size_eq
  rw [append_nil, length_reverse] at hsize
  cases hmany : pq.popMany k (l.foldl (pq.offer bound) pq.empty) with
  | none =>
    rw [popMany_eq_none_iff] at hmany
    omega
  | some q =>
    obtain ⟨taken, hperm, hlen, hbelow⟩ := exists_taken hmany
    obtain ⟨hdrain, hasc⟩ := drain_spec (q := q) le_rfl List.Pairwise.nil (by simp)
    rw [append_nil] at hdrain
    obtain ⟨taken', htaken, htakenAsc⟩ := exists_ascending (r := r) taken
    obtain ⟨dropped', hdropped, hdroppedAsc⟩ := exists_ascending (r := r) dropped
    have hkept : ∀ a ∈ pq.drain (pq.size q) q [] ++ taken', ∀ b ∈ dropped', ¬ r b a := by
      intro a ha b hb
      apply hkeeps.below a _ b (hdropped.subset hb)
      apply hperm.symm.subset
      exact (hdrain.append htaken).subset ha
    have hbound : (pq.drain (pq.size q) q []).length = min bound l.length - k := by
      have hqlen := hperm.length_eq
      rw [length_append] at hqlen
      rw [hdrain.length_eq]
      simp only [size] at hsize
      omega
    refine ⟨q, pq.drain (pq.size q) q [] ++ taken' ++ dropped', rfl, ?_, ?_, ?_⟩
    · have hall : (pq.elems q ++ taken ++ dropped).Perm l.reverse := by
        rw [append_nil] at hkeeps
        exact (hkeeps.perm.trans (hperm.append_right dropped)).symm
      exact (((hdrain.append htaken).append hdropped).trans hall).trans (reverse_perm l)
    · apply (hasc.append htakenAsc _).append hdroppedAsc hkept
      intro a ha b hb
      exact hbelow a (hdrain.subset ha) b (htaken.subset hb)
    · rw [append_assoc, ← hbound, take_left]

end PriorityQueue

end Neug.Lib
