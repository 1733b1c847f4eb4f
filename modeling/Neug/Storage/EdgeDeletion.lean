import Neug.Lib.Matching
import Neug.Storage.EdgeRun

/-! Deleting edges at both ends: what one `DeleteEdge` leaves, and the search for the other end
as a choice among the entries that still lead there. -/
namespace Neug.Storage
open Neug.Lib List Option Bool

variable {V D : Type}

/-- What deleting an entry at `ts` leaves of it. -/
def Nbr.kill (ts : ℕ) (n : Nbr D) : Nbr D := if n.timestamp ≤ ts then n.tombstone else n

@[simp] theorem Nbr.neighbor_kill (ts : ℕ) (n : Nbr D) : (n.kill ts).neighbor = n.neighbor := by
  unfold kill
  split_ifs <;> rfl

@[simp] theorem Nbr.data_kill (ts : ℕ) (n : Nbr D) : (n.kill ts).data = n.data := by
  unfold kill
  split_ifs <;> rfl

theorem Nbr.not_visible_kill {ts : ℕ} (hts : ts < invalidTimestamp) (n : Nbr D) :
    ts < (n.kill ts).timestamp := by
  unfold kill
  split_ifs with h
  · exact hts
  · exact not_le.mp h

theorem Nbr.kill_kill {ts : ℕ} (hts : ts < invalidTimestamp) (n : Nbr D) :
    (n.kill ts).kill ts = n.kill ts :=
  if_neg (not_le.mpr (n.not_visible_kill hts))

section

/-- `==` on property values as C++ has it: symmetric and transitive, but a NaN is not equal to
itself. -/
class PartialEq (V : Type) [PropertyValue V] : Prop where
  symm (a b : V) : PropertyValue.eq a b → PropertyValue.eq b a
  trans (a b c : V) : PropertyValue.eq a b → PropertyValue.eq b c → PropertyValue.eq a c

instance : PartialEq ℕ where
  symm _ _ h := beq_iff_eq.mpr (beq_iff_eq.mp h).symm
  trans _ _ _ hab hbc := beq_iff_eq.mpr ((beq_iff_eq.mp hab).trans (beq_iff_eq.mp hbc))

def Fits (properties : List (PropertyDef V)) : EdgeData V → Prop
  | .empty => properties = []
  | .value _ => isBundled properties = true ∧ properties ≠ []
  | .row _ => isBundled properties = false

variable [PropertyValue V] {properties : List (PropertyDef V)} {a b c : Probe V}

def Probe.same (properties : List (PropertyDef V)) (a b : Probe V) : Bool :=
  nbrDataEq properties a b == some true && a.timestamp == b.timestamp

theorem Probe.same_iff : a.same properties b = true ↔
    nbrDataEq properties a b = some true ∧ a.timestamp = b.timestamp := by
  simp [Probe.same]

theorem nbrDataEq_symm [PartialEq V] (h : nbrDataEq properties a b = some true) :
    nbrDataEq properties b a = some true := by
  unfold nbrDataEq at h ⊢
  cases ha : a.data <;> cases hb : b.data <;> simp only [ha, hb] at h ⊢ <;> try cases h
  · split_ifs at h ⊢
    simp only [some.injEq, and_eq_true, beq_iff_eq] at h ⊢
    exact ⟨h.1.symm, h.2.symm⟩
  · exact congrArg some (PartialEq.symm _ _ (some.inj h))
  · simp only [some.injEq, beq_iff_eq] at h ⊢
    exact h.symm

theorem nbrDataEq_trans [PartialEq V] (hab : nbrDataEq properties a b = some true)
    (hbc : nbrDataEq properties b c = some true) : nbrDataEq properties a c = some true := by
  unfold nbrDataEq at hab hbc ⊢
  cases ha : a.data <;> cases hb : b.data <;> cases hc : c.data <;>
    simp only [ha, hb, hc] at hab hbc ⊢ <;> first | cases hab | cases hbc | skip
  · split_ifs at hab hbc ⊢
    simp only [some.injEq, and_eq_true, beq_iff_eq] at hab hbc ⊢
    exact ⟨hab.1.trans hbc.1, hab.2.trans hbc.2⟩
  · exact congrArg some (PartialEq.trans _ _ _ (some.inj hab) (some.inj hbc))
  · simp only [some.injEq, beq_iff_eq] at hab hbc ⊢
    exact hab.trans hbc

theorem Probe.same_symm [PartialEq V] (h : a.same properties b) : b.same properties a := by
  rw [Probe.same_iff] at h ⊢
  exact ⟨nbrDataEq_symm h.1, h.2.symm⟩

theorem Probe.same_trans [PartialEq V] (hab : a.same properties b) (hbc : b.same properties c) :
    a.same properties c := by
  rw [Probe.same_iff] at hab hbc ⊢
  exact ⟨nbrDataEq_trans hab.1 hbc.1, hab.2.trans hbc.2⟩

theorem Probe.same_congr [PartialEq V] (h : c.same properties a) :
    c.same properties b = a.same properties b :=
  eq_iff_iff.mpr ⟨fun hcb => same_trans (same_symm h) hcb, fun hab => same_trans h hab⟩

theorem exists_nbrDataEq (ha : Fits properties a.data) (hb : Fits properties b.data) :
    ∃ same, nbrDataEq properties a b = some same := by
  unfold nbrDataEq
  cases hda : a.data <;> cases hdb : b.data <;> simp only [hda, Fits] at ha hb ⊢ <;>
    first | exact ⟨_, rfl⟩ | simp_all [isBundled]

def probeAt (l : List (Nbr (EdgeData V))) (past i : ℕ) : Option (Probe V) :=
  (l[i]?).map (probe l past i)

/-- The entry at offset `j` of `l` compares equal to a probe. -/
def fitsAt (properties : List (PropertyDef V)) (l : List (Nbr (EdgeData V))) (past : ℕ)
    (e : Probe V) (j : ℕ) : Bool :=
  (probeAt l past j).any fun q => q.same properties e

section

variable {l : List (Nbr (EdgeData V))} {e : Probe V} (hl : ∀ n ∈ l, Fits properties n.data)
  (he : Fits properties e.data)
include hl he

theorem findExactMatch_eq {past : ℕ} {is : List ℕ}
    (his : ∀ i ∈ is, i < l.length) : findExactMatch properties l past e is =
      some ((is.find? (fitsAt properties l past e)).getD int32Max) := by
  induction is with
  | nil => rfl
  | cons i is ih =>
    have hi : i < l.length := his i mem_cons_self
    have hrest := ih fun j hj => his j (mem_cons_of_mem i hj)
    obtain ⟨same, hsame⟩ := exists_nbrDataEq (a := probe l past i l[i])
      (hl _ (getElem_mem hi)) he
    have hfit : fitsAt properties l past e i = (same && l[i].timestamp == e.timestamp) := by
      have hprobe : probeAt l past i = some (probe l past i l[i]) := by
        rw [probeAt, getElem?_eq_getElem hi, map_some]
      rw [fitsAt, hprobe, any_some, Probe.same, hsame]
      cases same <;> rfl
    simp only [findExactMatch, getElem?_eq_getElem hi, bind_eq_bind,
      bind_some, hsame, hrest, find?_cons, hfit]
    cases same && l[i].timestamp == e.timestamp <;> rfl

/-- The search takes one of the visible entries that lead to `nbr`, or fails. -/
theorem fuzzySearchOffset_eq {past t nbr : ℕ} : fuzzySearchOffset properties l past t nbr e =
      some ((pick (fitsAt properties l past e) (candidates l t nbr)).getD int32Max) := by
  have hmem : ∀ i ∈ candidates l t nbr, i < l.length := by
    intro i hi
    obtain ⟨n, hn, -⟩ := mem_candidates.mp hi
    exact (List.getElem?_eq_some_iff.mp hn).1
  unfold fuzzySearchOffset
  split
  · next hnil =>
    rw [hnil]
    rfl
  · next i hone =>
    rw [hone]
    rfl
  · next is hnil hone =>
    rw [findExactMatch_eq hl he hmem]
    match hc : candidates l t nbr with
    | [] => exact absurd hc hnil
    | [x] => exact absurd hc (hone x)
    | _ :: _ :: _ => rfl

end

end

section

theorem offsets_eq_filter (p : Nbr D → Bool) (l : List (Nbr D)) :
    MutableCsr.offsets p l = (range l.length).filter fun i => (l[i]?).any p := by
  have hzip : l.zipIdx.map Prod.snd = range l.length := by
    rw [zipIdx_map_snd, range_eq_range']
  rw [← hzip, List.filter_map, MutableCsr.offsets]
  congr 1
  apply filter_congr
  intro x hx
  simp [mem_zipIdx_iff_getElem?.mp hx]

theorem pairwise_offsets (p : Nbr D → Bool) (l : List (Nbr D)) :
    (MutableCsr.offsets p l).Pairwise (· < ·) := by
  rw [offsets_eq_filter]
  exact pairwise_lt_range.filter _

theorem nodup_offsets (p : Nbr D → Bool) (l : List (Nbr D)) : (MutableCsr.offsets p l).Nodup :=
  (pairwise_offsets p l).imp ne_of_lt

theorem length_candidates_le (l : List (Nbr (EdgeData V))) (ts nbr : ℕ) :
    (candidates l ts nbr).length ≤ l.length := by
  rw [candidates, offsets_eq_filter]
  exact (length_filter_le _ _).trans_eq length_range

def Ranked (l : List (Nbr D)) (ts o : ℕ) : Prop := ∀ n ∈ l.take o, n.timestamp ≤ ts

theorem ranked_iff_countP {l : List (Nbr D)} {ts o : ℕ} (h : o ≤ l.length) :
    Ranked l ts o ↔ (l.take o).countP (Nbr.visible ts) = o := by
  have hcount : (l.take o).countP (Nbr.visible ts) = o ↔
      (l.take o).countP (Nbr.visible ts) = (l.take o).length := by
    rw [length_take_of_le h]
  rw [hcount, countP_eq_length]
  simp [Ranked, Nbr.visible]

def KilledAt (ts : ℕ) (l l' : List (Nbr D)) (js : List ℕ) : Prop :=
  ∀ j, l'[j]? = if j ∈ js then (l[j]?).map (Nbr.kill ts) else l[j]?

variable {ts : ℕ} {l l' l'' : List (Nbr D)} {js ks : List ℕ}

theorem KilledAt.refl (ts : ℕ) (l : List (Nbr D)) : KilledAt ts l l [] := fun j => by simp

theorem KilledAt.trans (hts : ts < invalidTimestamp) (h : KilledAt ts l l' js)
    (h' : KilledAt ts l' l'' ks) : KilledAt ts l l'' (js ++ ks) := by
  intro j
  rw [h' j, h j]
  by_cases hj : j ∈ js <;> by_cases hk : j ∈ ks <;>
    simp [hj, Function.comp_def, Nbr.kill_kill hts]

theorem KilledAt.length_eq (h : KilledAt ts l l' js) : l'.length = l.length := by
  have hsome : ∀ j : ℕ, (l'[j]?).isSome = (l[j]?).isSome := by
    intro j
    rw [h j]
    split_ifs <;> simp
  apply le_antisymm
  · by_contra hlt
    have := hsome l.length
    rw [getElem?_eq_getElem (not_le.mp hlt), getElem?_eq_none le_rfl] at this
    exact Bool.noConfusion this
  · by_contra hlt
    have := hsome l'.length
    rw [getElem?_eq_getElem (not_le.mp hlt), getElem?_eq_none le_rfl] at this
    exact Bool.noConfusion this

theorem KilledAt.candidates_eq {l l' : List (Nbr (EdgeData V))} (hts : ts < invalidTimestamp)
    (h : KilledAt ts l l' js) (nbr : ℕ) :
    candidates l' ts nbr = (candidates l ts nbr).filter (· ∉ js) := by
  unfold candidates
  rw [offsets_eq_filter, offsets_eq_filter, h.length_eq, List.filter_filter]
  apply filter_congr
  intro j _
  rw [h j]
  by_cases hj : j ∈ js
  · simp only [hj]
    cases l[j]? with
    | none => rfl
    | some n =>
      have := n.not_visible_kill hts
      simp [Nbr.visible, this]
  · simp [hj]

theorem KilledAt.exists_mem (h : KilledAt ts l l' js) {n : Nbr D} (hn : n ∈ l') :
    ∃ m ∈ l, n.data = m.data ∧ n.neighbor = m.neighbor := by
  obtain ⟨j, hj⟩ := getElem?_of_mem hn
  rw [h j] at hj
  split_ifs at hj
  · obtain ⟨m, hm, rfl⟩ := map_eq_some_iff.mp hj
    exact ⟨m, mem_of_getElem? hm, by simp, by simp⟩
  · exact ⟨n, mem_of_getElem? hj, rfl, rfl⟩

theorem KilledAt.probeAt_eq {l l' : List (Nbr (EdgeData V))} (h : KilledAt ts l l' js)
    (past : ℕ) {j : ℕ} (hj : j ∉ js) : probeAt l' past j = probeAt l past j := by
  have hnext : (l'[j + 1]?).map Nbr.neighbor = (l[j + 1]?).map Nbr.neighbor := by
    rw [h (j + 1)]
    split_ifs <;> simp [Function.comp_def]
  unfold probeAt
  rw [h j, if_neg hj]
  congr 1
  funext n
  unfold probe
  congr 1
  cases hl' : l'[j + 1]? <;> cases hl : l[j + 1]? <;> simp_all

end

section

variable {c c' : MutableCsr D} {ts at' : ℕ} {l l' : List (Nbr D)} {js : List ℕ}

theorem MutableCsr.mem_view {v : ℕ} {n : Nbr D} (hn : n ∈ c.list v) (hvis : n.timestamp ≤ at') :
    (v, n.neighbor, n.data) ∈ c.view at' := by
  have hv : v < c.size := by
    obtain ⟨i, hi⟩ := getElem?_of_mem hn
    exact lt_size_of_getElem? hi
  refine mem_flatten.mpr ⟨_, mem_mapIdx.mpr ⟨v, hv, rfl⟩, ?_⟩
  have hlist : c.adj[v] = c.list v := (getD_eq_getElem _ _ hv).symm
  rw [hlist]
  exact mem_map.mpr ⟨n, mem_filter.mpr ⟨hn, by simp [Nbr.visible, hvis]⟩, rfl⟩

theorem MutableCsr.exists_of_mem_view {e : ℕ × ℕ × D} (he : e ∈ c.view at') :
    ∃ n ∈ c.list e.1, n.timestamp ≤ at' ∧ e.2 = (n.neighbor, n.data) := by
  obtain ⟨row, hrow, he⟩ := mem_flatten.mp he
  obtain ⟨v, hv, rfl⟩ := mem_mapIdx.mp hrow
  obtain ⟨n, hn, rfl⟩ := mem_map.mp he
  obtain ⟨hn, hvis⟩ := mem_filter.mp hn
  have hlist : c.adj[v] = c.list v := (getD_eq_getElem _ _ hv).symm
  exact ⟨n, hlist ▸ hn, by simpa [Nbr.visible] using hvis, rfl⟩

theorem MutableCsr.view_filter {q : ℕ × ℕ × D → Bool} (hsize : c'.size = c.size)
    (h : ∀ v, (c'.list v).filter (Nbr.visible at') =
      ((c.list v).filter (Nbr.visible at')).filter fun n => q (v, n.neighbor, n.data)) :
    c'.view at' = (c.view at').filter q := by
  unfold view
  rw [filter_flatten]
  congr 1
  apply ext_getElem?
  intro v
  rw [getElem?_map, getElem?_mapIdx, getElem?_mapIdx]
  by_cases hv : v < c.size
  · have hv' : v < c'.adj.length := by
      rw [← hsize] at hv
      exact hv
    have hl' : c'.adj[v] = c'.list v := (getD_eq_getElem _ _ hv').symm
    have hl : c.adj[v] = c.list v := (getD_eq_getElem _ _ hv).symm
    rw [getElem?_eq_getElem hv', getElem?_eq_getElem hv, hl, hl']
    simp only [map_some, h v, List.filter_map]
    rfl
  · have hv' : c'.adj.length ≤ v := hsize.trans_le (not_lt.mp hv)
    rw [getElem?_eq_none hv', getElem?_eq_none (not_lt.mp hv)]
    rfl

/-- Where exactly the visible entries outside `q` are deleted, later readers see the rest. -/
theorem KilledAt.filter_visible {q : Nbr D → Bool} (h : KilledAt ts l l' js)
    (hcurrent : ∀ n ∈ l, n.timestamp ≤ ts ∨ n.timestamp = invalidTimestamp) (hat : ts ≤ at')
    (hinv : at' < invalidTimestamp)
    (hjs : ∀ j n, l[j]? = some n → n.timestamp ≤ ts → (j ∈ js ↔ q n = false)) :
    l'.filter (Nbr.visible at') = (l.filter (Nbr.visible at')).filter q := by
  have hmap : l' = l.map fun n => if q n then n else n.kill ts := by
    apply ext_getElem?
    intro j
    rw [h j, getElem?_map]
    cases hn : l[j]? with
    | none => simp
    | some n =>
      by_cases hvis : n.timestamp ≤ ts
      · have hiff := hjs j n hn hvis
        by_cases hj : j ∈ js
        · simp [hj, hiff.mp hj]
        · have hq : q n = true := by
            rw [← not_eq_false]
            exact fun hq => hj (hiff.mpr hq)
          simp [hj, hq]
      · have hsame : n.kill ts = n := if_neg hvis
        simp [hsame]
  rw [hmap, List.filter_map, List.filter_filter]
  have hpred : ∀ n ∈ l, (Nbr.visible at' ∘ fun n => if q n then n else n.kill ts) n =
      (q n && n.visible at') := by
    intro n hn
    by_cases hq : q n
    · simp [hq]
    · have hdead : at' < (n.kill ts).timestamp := by
        rcases hcurrent n hn with hvis | htomb
        · simpa [Nbr.kill, hvis, Nbr.tombstone] using hinv
        · have hnot : ¬ n.timestamp ≤ ts := by omega
          simp only [Nbr.kill, hnot, ↓reduceIte]
          omega
      simp [hq, Nbr.visible, hdead]
  rw [filter_congr hpred]
  conv_rhs => rw [← map_id (l.filter _)]
  apply map_congr_left
  intro n hn
  have hq := (and_eq_true_iff.mp (mem_filter.mp hn).2).1
  simp [hq]

end

namespace EdgeTable

/-- `t'` is `t` with the entries deleted that stand at some offsets of the lists of some
vertices, given as pairs. -/
structure Killed (ts : ℕ) (t t' : EdgeTable V) (outs ins : List (ℕ × ℕ)) : Prop where
  rest : t' = { t with outCsr := t'.outCsr, inCsr := t'.inCsr }
  outSize : t'.outCsr.size = t.outCsr.size
  inSize : t'.inCsr.size = t.inCsr.size
  outList : ∀ v, KilledAt ts (t.outCsr.list v) (t'.outCsr.list v)
    ((outs.filter fun p => p.1 = v).map Prod.snd)
  inList : ∀ v, KilledAt ts (t.inCsr.list v) (t'.inCsr.list v)
    ((ins.filter fun p => p.1 = v).map Prod.snd)

variable {t t' t'' : EdgeTable V} {ts : ℕ} {outs ins outs' ins' : List (ℕ × ℕ)}

theorem Killed.refl (ts : ℕ) (t : EdgeTable V) : Killed ts t t [] [] :=
  ⟨rfl, rfl, rfl, fun _ => .refl _ _, fun _ => .refl _ _⟩

theorem Killed.trans (hts : ts < invalidTimestamp) (h : Killed ts t t' outs ins)
    (h' : Killed ts t' t'' outs' ins') : Killed ts t t'' (outs ++ outs') (ins ++ ins') := by
  refine ⟨?_, h'.outSize.trans h.outSize, h'.inSize.trans h.inSize, fun v => ?_, fun v => ?_⟩
  · rw [h'.rest, h.rest]
  · rw [filter_append, map_append]
    exact (h.outList v).trans hts (h'.outList v)
  · rw [filter_append, map_append]
    exact (h.inList v).trans hts (h'.inList v)

theorem Killed.properties_eq (h : Killed ts t t' outs ins) : t'.properties = t.properties := by
  rw [h.rest]

theorem Killed.readData_eq (h : Killed ts t t' outs ins) : t'.readData = t.readData := by
  funext d
  rw [h.rest]
  rfl

end EdgeTable

theorem MutableCsr.deleteEdge_killed {c : MutableCsr D} {v k : ℕ}
    (hk : k < (c.list v).length) (ts : ℕ) :
    ∃ c', c.deleteEdge v k ts = .ok c' ∧ c'.size = c.size ∧ ∀ u,
      KilledAt ts (c.list u) (c'.list u) (([(v, k)].filter fun p => p.1 = u).map Prod.snd) := by
  have hn : (c.list v)[k]? = some (c.list v)[k] := getElem?_eq_getElem hk
  have hlist : ∀ u, KilledAt ts (c.list u) ((c.setNbr v k ((c.list v)[k].kill ts)).list u)
      (([(v, k)].filter fun p => p.1 = u).map Prod.snd) := by
    intro u
    rw [list_setNbr (lt_size_of_getElem? hn)]
    by_cases hu : u = v
    · subst hu
      intro j
      by_cases hj : k = j
      · subst hj
        simp [hk]
      · simp [hj, Ne.symm hj]
    · rw [if_neg hu]
      simpa [Ne.symm hu] using KilledAt.refl ts (c.list u)
  by_cases hvis : (c.list v)[k].timestamp ≤ ts
  · have hdel : c.deleteEdge v k ts =
        .ok { c.setNbr v k (c.list v)[k].tombstone with edgeNum := c.edgeNum - 1 } := by
      simp [deleteEdge, hn, if_pos hvis]
    rw [Nbr.kill, if_pos hvis] at hlist
    exact ⟨_, hdel, size_setNbr c v k _, hlist⟩
  · refine ⟨c, by simp only [deleteEdge, hn, if_neg hvis], rfl, fun u => ?_⟩
    have hsame : (c.list v).set k (c.list v)[k] = c.list v := set_getElem_self hk
    have hkill : (c.list v)[k].kill ts = (c.list v)[k] := if_neg hvis
    have hu := hlist u
    rw [hkill, list_setNbr (lt_size_of_getElem? hn)] at hu
    by_cases huv : u = v
    · subst huv
      simpa using hu
    · simpa [huv] using hu

namespace EdgeTable

variable {t t' : EdgeTable V} {src dst k ie ts : ℕ}

theorem deleteEdge_killed (hk : k < (t.outCsr.list src).length)
    (hie : ie < (t.inCsr.list dst).length) (ts : ℕ) :
    ∃ t', deleteEdge src dst k ie ts t = some (.ok (), t') ∧
      Killed ts t t' [(src, k)] [(dst, ie)] := by
  obtain ⟨a, ha, hasize, halist⟩ := MutableCsr.deleteEdge_killed hk ts
  obtain ⟨b, hb, hbsize, hblist⟩ := MutableCsr.deleteEdge_killed hie ts
  refine ⟨{ t with outCsr := a, inCsr := b }, ?_, rfl, hasize, hbsize, halist, hblist⟩
  simp [deleteEdge, Call.bind_apply, onOut, ha, onIn, hb]

/-- `DeleteEdge` at an incoming offset that does not exist: the outgoing half is done. -/
theorem deleteEdge_fails (hk : k < (t.outCsr.list src).length)
    (hie : (t.inCsr.list dst).length ≤ ie) (ts : ℕ) :
    ∃ t', deleteEdge src dst k ie ts t = some (.error (.csr .outOfBound), t') ∧
      Killed ts t t' [(src, k)] [] := by
  obtain ⟨a, ha, hasize, halist⟩ := MutableCsr.deleteEdge_killed hk ts
  have hin : t.inCsr.deleteEdge dst ie ts = .error .outOfBound := by
    simp [MutableCsr.deleteEdge, getElem?_eq_none hie]
  refine ⟨{ t with outCsr := a }, ?_, rfl, hasize, rfl, halist, fun v => ?_⟩
  · simp [deleteEdge, Call.bind_apply, onOut, ha, onIn, hin]
  · exact KilledAt.refl _ _

/-- Both CSRs hold the same live edges with the same data. An update of a table with rows stamps
the outgoing end only, so the timestamps of the ends may differ. -/
def Paired (t : EdgeTable V) : Prop :=
  ∀ v w, (t.outCsr.live v w).map Prod.snd = (t.inCsr.live w v).map Prod.snd

/-- What holds of an edge table when a writer at `ts` starts: the CSRs hold the same edges, the
data has the layout of the schema, no edge is newer, and degrees are of type `int`. -/
structure WellFormed (t : EdgeTable V) (ts : ℕ) : Prop where
  paired : t.Paired
  outFits : ∀ v, ∀ n ∈ t.outCsr.list v, Fits t.properties n.data
  inFits : ∀ v, ∀ n ∈ t.inCsr.list v, Fits t.properties n.data
  outCurrent : ∀ v, ∀ n ∈ t.outCsr.list v, n.timestamp ≤ ts ∨ n.timestamp = invalidTimestamp
  inCurrent : ∀ v, ∀ n ∈ t.inCsr.list v, n.timestamp ≤ ts ∨ n.timestamp = invalidTimestamp
  outDegree : ∀ v, (t.outCsr.list v).length ≤ int32Max
  inDegree : ∀ v, (t.inCsr.list v).length ≤ int32Max

theorem length_candidates_current {l : List (Nbr (EdgeData V))} (hts : ts < invalidTimestamp)
    (h : ∀ n ∈ l, n.timestamp ≤ ts ∨ n.timestamp = invalidTimestamp) (nbr : ℕ) :
    (candidates l ts nbr).length = (liveTo l nbr).card := by
  rw [length_candidates _ hts, Multiset.filter_eq_self.mpr]
  intro x hx
  obtain ⟨n, hn, -, halive, rfl⟩ := mem_liveTo.mp hx
  exact (h n hn).resolve_right halive

/-- As many edges are visible from `src` to `dst` in one CSR as in the other. -/
theorem WellFormed.length_candidates_eq (h : t.WellFormed ts) (hts : ts < invalidTimestamp)
    (src dst : ℕ) : (candidates (t.outCsr.list src) ts dst).length =
      (candidates (t.inCsr.list dst) ts src).length := by
  rw [length_candidates_current hts (h.outCurrent src),
    length_candidates_current hts (h.inCurrent dst)]
  have hcard := congrArg Multiset.card (h.paired src dst)
  rwa [Multiset.card_map, Multiset.card_map] at hcard

theorem Killed.candidates_erase {t₁ : EdgeTable V} {c : ℕ} {outs : List (ℕ × ℕ)}
    (hts : ts < invalidTimestamp) (h : Killed ts t t₁ outs [(dst, c)]) :
    candidates (t₁.inCsr.list dst) ts src = (candidates (t.inCsr.list dst) ts src).erase c := by
  have hnodup : (candidates (t.inCsr.list dst) ts src).Nodup := nodup_offsets _ _
  rw [(h.inList dst).candidates_eq hts, hnodup.erase_eq_filter]
  apply filter_congr
  intro j _
  by_cases hj : j = c <;> simp [hj]

section

variable [PropertyValue V] {past : Past}

/-- The entry at offset `j` of the incoming list compares equal to the outgoing one at `i`. -/
def serves (t : EdgeTable V) (past : Past) (src dst i j : ℕ) : Bool :=
  (probeAt (t.outCsr.list src) (past.out src) i).any fun e =>
    fitsAt t.properties (t.inCsr.list dst) (past.inn dst) e j

def alike (t : EdgeTable V) (past : Past) (src i i' : ℕ) : Bool :=
  (probeAt (t.outCsr.list src) (past.out src) i).any fun e =>
    (probeAt (t.outCsr.list src) (past.out src) i').any fun e' => e.same t.properties e'

theorem serves_eq_alike [PartialEq V] {i i' j : ℕ} (h : t.serves past src dst i j) :
    t.serves past src dst i' j = t.alike past src i i' := by
  unfold serves alike fitsAt at *
  cases hi : probeAt (t.outCsr.list src) (past.out src) i with
  | none => simp [hi] at h
  | some e =>
    cases hj : probeAt (t.inCsr.list dst) (past.inn dst) j with
    | none => simp [hj] at h
    | some q =>
      simp only [hi, hj] at h ⊢
      cases probeAt (t.outCsr.list src) (past.out src) i' with
      | none => rfl
      | some e' => exact Probe.same_congr h

end

end EdgeTable

end Neug.Storage
