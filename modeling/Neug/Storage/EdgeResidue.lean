import Neug.Storage.EdgeRun

/-! What an aborted transaction may leave behind. Undoing an operation does not restore the
bytes: deleted entries come back with the timestamp of the transaction, added ones stay as
tombstones, and ids, rows and capacity stay allocated. No reader from the timestamp of the
transaction on can see the difference. -/
namespace Neug.Storage
open Neug.Lib List Option

variable {V D : Type} {t : ℕ}

/-- Timestamps that no reader from `ts` on can tell apart. -/
def SameFrom (ts a b : ℕ) : Prop := a = b ∨ a ≤ ts ∧ b ≤ ts

namespace Nbr

/-- Entries that no reader from `ts` on can tell apart. -/
def SameFrom (ts : ℕ) (n m : Nbr D) : Prop :=
  m.neighbor = n.neighbor ∧ m.data = n.data ∧ Storage.SameFrom ts n.timestamp m.timestamp

def Gone (n : Nbr D) : Prop := n.timestamp = invalidTimestamp

end Nbr

abbrev Kept (ts : ℕ) (l l' : List (Nbr D)) : Prop := Grown (Nbr.SameFrom ts) Nbr.Gone l l'

namespace MutableCsr

def viewRow (t v : ℕ) (l : List (Nbr D)) : List (ℕ × ℕ × D) :=
  l.filterMap fun n => if n.visible t then some (v, n.neighbor, n.data) else none

theorem view_eq_flatMap (c : MutableCsr D) (t : ℕ) :
    c.view t = (range c.size).flatMap fun v => viewRow t v (c.list v) := by
  have hrows : (c.adj.mapIdx fun src l =>
      (l.filter (Nbr.visible t)).map fun n => (src, n.neighbor, n.data)) =
      (range c.size).map fun v => viewRow t v (c.list v) := by
    apply ext_getElem?
    intro v
    rw [getElem?_mapIdx, getElem?_map]
    by_cases hv : v < c.size
    · have hadj : c.adj[v]? = some (c.list v) := by
        unfold list
        rw [getD_eq_getElem?_getD, getElem?_eq_getElem hv]
        rfl
      rw [hadj, getElem?_range hv]
      unfold viewRow
      simp only [map_some, some.injEq]
      generalize c.list v = l
      induction l with
      | nil => rfl
      | cons n l ih =>
        rw [filter_cons, filterMap_cons]
        split_ifs with hn
        · rw [map_cons, ih]
        · exact ih
    · have hadj : c.adj[v]? = none := getElem?_eq_none (not_lt.mp hv)
      have hrange : (range c.size)[v]? = none := getElem?_eq_none (by simpa using hv)
      rw [hadj, hrange]
      rfl
  unfold view
  rw [hrows]
  rfl

theorem view_eq_of_rows {c c' : MutableCsr D} (hsize : c.size ≤ c'.size)
    (hrows : ∀ v, viewRow t v (c'.list v) = viewRow t v (c.list v)) : c'.view t = c.view t := by
  obtain ⟨k, hk⟩ := Nat.exists_eq_add_of_le hsize
  have hrest : ((range k).map (c.size + ·)).flatMap (fun v => viewRow t v (c'.list v)) = [] := by
    rw [flatMap_eq_nil_iff]
    intro v hv
    obtain ⟨j, -, rfl⟩ := mem_map.mp hv
    rw [hrows, list_of_size_le (Nat.le_add_right _ _)]
    rfl
  rw [view_eq_flatMap, view_eq_flatMap, hk, range_add, flatMap_append, hrest, append_nil]
  exact congrArg flatten (map_congr_left fun v _ => hrows v)

structure Residue (ts : ℕ) (c c' : MutableCsr D) : Prop where
  size : c.size ≤ c'.size
  list : ∀ v, Kept ts (c.list v) (c'.list v)

end MutableCsr

namespace EdgeTable

def UsesRow (t : EdgeTable V) (r : ℕ) : Prop :=
  ∃ v, ∃ n ∈ t.outCsr.list v ++ t.inCsr.list v, n.data = .row r

structure Residue (ts : ℕ) (t t' : EdgeTable V) : Prop where
  properties : t'.properties = t.properties
  csrType : t'.csrType = t.csrType
  out : t.outCsr.Residue ts t'.outCsr
  inn : t.inCsr.Residue ts t'.inCsr
  rows : ∀ r, t.UsesRow r → t'.table.row r = t.table.row r

theorem readData_row (t : EdgeTable V) (hb : isBundled t.properties = false) (r : ℕ) :
    t.readData (.row r) = (range t.properties.length).map fun c => (t.table.row r)[c]?.join := by
  unfold readData Table.row
  rw [if_neg (Bool.eq_false_iff.mp hb)]
  refine map_congr_left fun c _ => ?_
  rw [getElem?_map]
  cases t.table.columns[c]? <;> rfl

theorem mem_list_of_mem_view {c : MutableCsr D} {u : ℕ} {e : ℕ × ℕ × D} (he : e ∈ c.view u) :
    ∃ n ∈ c.list e.1, n.data = e.2.2 := by
  rw [MutableCsr.view_eq_flatMap] at he
  obtain ⟨v, -, he⟩ := mem_flatMap.mp he
  obtain ⟨n, hn, heq⟩ := mem_filterMap.mp he
  split_ifs at heq
  cases heq
  exact ⟨n, hn, rfl⟩

section

variable {t t' : EdgeTable V} {u : ℕ}

theorem readData_congr (hprops : t'.properties = t.properties) {d : EdgeData V}
    (hrow : ∀ r, d = .row r → t'.table.row r = t.table.row r) : t'.readData d = t.readData d := by
  cases hb : isBundled t.properties with
  | true =>
    unfold readData
    rw [hprops, hb]
    rfl
  | false =>
    cases d with
    | row r =>
      rw [readData_row t hb, readData_row t' (by rw [hprops]; exact hb), hprops, hrow r rfl]
    | empty | value =>
      unfold readData
      rw [hprops]

variable (hprops : t'.properties = t.properties)
  (hrows : ∀ r, t.UsesRow r → t'.table.row r = t.table.row r)
include hprops hrows

theorem outgoing_congr (hview : t'.outCsr.view u = t.outCsr.view u) :
    t'.outgoing u = t.outgoing u := by
  unfold outgoing
  rw [hview]
  refine map_congr_left fun e he => ?_
  obtain ⟨n, hn, hdata⟩ := mem_list_of_mem_view he
  rw [readData_congr hprops fun r hr => hrows r ⟨e.1, n, mem_append_left _ hn, hdata.trans hr⟩]

theorem incoming_congr (hview : t'.inCsr.view u = t.inCsr.view u) :
    t'.incoming u = t.incoming u := by
  unfold incoming
  rw [hview]
  refine map_congr_left fun e he => ?_
  obtain ⟨n, hn, hdata⟩ := mem_list_of_mem_view he
  rw [readData_congr hprops fun r hr => hrows r ⟨e.1, n, mem_append_right _ hn, hdata.trans hr⟩]

end

end EdgeTable

end Neug.Storage
