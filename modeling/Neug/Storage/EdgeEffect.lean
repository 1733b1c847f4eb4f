import Neug.Storage.InsertEffect

/-! When `EdgeTable::AddEdge` succeeds, and that it then adds exactly its edge to what a reader at
its timestamp sees from both ends. -/
namespace Neug.Storage
open Neug.Lib List Option Call

variable {V : Type} {ts : ℕ}

namespace MutableCsr

variable {D : Type} {c : MutableCsr D} {v : ℕ} {n : Nbr D}

theorem view_push_perm (hv : v < c.size) (hn : n.visible ts = true) :
    ((c.push v n).view ts).Perm ((v, n.neighbor, n.data) :: c.view ts) := by
  obtain ⟨before, behind, hrange⟩ := append_of_mem (mem_range.mpr hv)
  have hnodup : (before ++ v :: behind).Nodup := hrange ▸ nodup_range
  have hrow : ∀ u, u ≠ v → viewRow ts u ((c.push v n).list u) = viewRow ts u (c.list u) := by
    intro u hu
    rw [list_push hv, if_neg hu]
  have hrest : ∀ l : List ℕ, v ∉ l → (l.flatMap fun u => viewRow ts u ((c.push v n).list u)) =
      l.flatMap fun u => viewRow ts u (c.list u) := by
    intro l hl
    exact congrArg flatten (map_congr_left fun u hu => hrow u fun heq => hl (heq ▸ hu))
  have hbefore : v ∉ before := fun hmem => (nodup_append.mp hnodup).2.2 v hmem v mem_cons_self rfl
  have hbehind : v ∉ behind := (nodup_cons.mp (nodup_append.mp hnodup).2.1).1
  have hself : viewRow ts v ((c.push v n).list v) =
      viewRow ts v (c.list v) ++ [(v, n.neighbor, n.data)] := by
    rw [list_push hv]
    simp [viewRow, hn]
  rw [view_eq_flatMap, view_eq_flatMap, size_push, hrange]
  simp only [flatMap_append, flatMap_cons, hrest before hbefore, hrest behind hbehind, hself]
  rw [append_assoc, singleton_append, ← append_assoc, ← append_assoc]
  exact perm_middle

end MutableCsr

namespace EdgeTable

variable {t t' : EdgeTable V} {src dst : ℕ} {d : EdgeData V} {edgeData : List V} {tab : Table V}

def Stores (t : EdgeTable V) (edgeData : List V) : Prop :=
  if isBundled t.properties then
    t.properties = [] ∧ t.csrType = none ∧ edgeData = [] ∨
      t.properties.length = 1 ∧ t.csrType ≠ none ∧ edgeData.length = 1
  else t.csrType = some .uint64 ∧ edgeData.length = t.properties.length ∧
    t.table.TakesRow t.tableIdx edgeData

/-- What `AddEdge` needs of the table: both lists, a layout that holds the values, and that a
visible edge which refers to the next row has the same values. -/
structure Accepts (t : EdgeTable V) (src dst : ℕ) (edgeData : List V) (ts : ℕ) : Prop where
  inn : dst < t.inCsr.size
  out : src < t.outCsr.size
  stored : t.Stores edgeData
  fresh : isBundled t.properties = false → ∀ e ∈ t.outCsr.view ts ++ t.inCsr.view ts,
    e.2.2 = .row t.tableIdx → t.readData (.row t.tableIdx) = edgeData.map some

/-- A reader at `ts` sees one edge more from both ends, with these properties. -/
def Gains (ts src dst : ℕ) (edgeData : List V) (t t' : EdgeTable V) : Prop :=
  (t'.outgoing ts).Perm ((src, dst, edgeData.map some) :: t.outgoing ts) ∧
    (t'.incoming ts).Perm ((src, dst, edgeData.map some) :: t.incoming ts)

def withEdge (t : EdgeTable V) (src dst : ℕ) (d : EdgeData V) (ts : ℕ) (tab : Table V) :
    EdgeTable V :=
  { (t.claimRow.pushIn src dst d ts).pushOut src dst d ts with table := tab }

theorem addEdge_ok (h : addEdge src dst edgeData ts t = some (.ok (), t')) :
    dst < t.inCsr.size ∧ src < t.outCsr.size ∧ ∃ d tab, t.entryData edgeData = some d ∧
      t.writeRow edgeData = some (tab, .ok ()) ∧ t' = t.withEdge src dst d ts tab := by
  rcases addEdge_run h with ⟨-, -, hres⟩ | ⟨d, hd, ⟨-, -, hres⟩ | ⟨hdst, hcase⟩⟩
  · exact absurd rfl hres
  · exact absurd rfl hres
  rcases hcase with ⟨-, -, hres⟩ | ⟨hsrc, ⟨tab, q⟩, hp, rfl, hres⟩
  · exact absurd rfl hres
  · obtain rfl : q = .ok () := hres.mp rfl
    exact ⟨hdst, hsrc, d, tab, hd, hp, rfl⟩

theorem putBoth_apply (hdst : dst < t.inCsr.size) (hsrc : src < t.outCsr.size) :
    putBoth src dst d ts t = some (.ok (), (t.pushIn src dst d ts).pushOut src dst d ts) := by
  rw [putBoth, Call.bind_apply, onIn, MutableCsr.putEdge, if_neg (not_le.mpr hdst)]
  dsimp only
  rw [onOut, MutableCsr.putEdge, if_neg (not_le.mpr hsrc)]
  rfl

theorem addEdge_apply (hdst : dst < t.inCsr.size) (hsrc : src < t.outCsr.size)
    (hd : t.entryData edgeData = some d) (htab : t.writeRow edgeData = some (tab, .ok ())) :
    addEdge src dst edgeData ts t = some (.ok (), t.withEdge src dst d ts tab) := by
  unfold entryData at hd
  unfold writeRow at htab
  rw [addEdge, read_bind]
  split_ifs at hd htab ⊢ with hb hlen
  · rw [addBundledEdge, read_bind, defined_bind_eq_some]
    refine ⟨d, hd, ?_⟩
    cases htab
    rw [putBoth_apply hdst hsrc, withEdge, claimRow, if_pos hb]
    rfl
  · rw [addUnbundledEdge, read_bind, if_neg (not_not.mpr hlen), modify_bind, defined_bind_eq_some]
    refine ⟨d, hd, ?_⟩
    have hput : putBoth src dst d ts { t with tableIdx := t.tableIdx + 1 } =
        some (.ok (), _) := putBoth_apply hdst hsrc
    rw [Call.bind_apply, hput]
    dsimp only
    rw [onTable, withEdge, claimRow, if_neg hb]
    simp only [pushIn, pushOut, htab]
    rfl

theorem properties_of_isBundled {properties : List (PropertyDef V)}
    (h : isBundled properties = true) : properties = [] ∨ ∃ p, properties = [p] := by
  match properties, h with
  | [], _ => exact .inl rfl
  | [p], _ => exact .inr ⟨p, rfl⟩

section

variable (hrow : t.writeRow edgeData = some (tab, .ok ()))
include hrow

theorem readData_withEdge_old {data : EdgeData V}
    (hdata : isBundled t.properties = true ∨ data ≠ .row t.tableIdx) :
    (t.withEdge src dst d ts tab).readData data = t.readData data := by
  have hprops : (t.withEdge src dst d ts tab).properties = t.properties := rfl
  refine readData_congr hprops fun r hr => ?_
  subst hr
  unfold writeRow at hrow
  split_ifs at hrow with hb
  · cases hrow
    rfl
  · have hne : r ≠ t.tableIdx := by
      rintro rfl
      exact hdata.elim hb fun h => h rfl
    exact Table.row_insert hrow hne

theorem readData_withEdge_row (hb : isBundled t.properties = false)
    (hlen : t.properties.length = edgeData.length) :
    (t.withEdge src dst d ts tab).readData (.row t.tableIdx) = edgeData.map some := by
  rw [writeRow, if_neg (Bool.eq_false_iff.mp hb)] at hrow
  rw [readData_row (t.withEdge src dst d ts tab) hb]
  change (range t.properties.length).map (fun c => (tab.row t.tableIdx)[c]?.join) = _
  rw [Table.row_insert_self hrow, hlen]
  refine ext_getElem (by simp) fun i hi hi' => ?_
  simp only [length_map] at hi'
  simp [hi']

theorem readData_withEdge_new_iff (hd : t.entryData edgeData = some d) :
    (t.withEdge src dst d ts tab).readData d = edgeData.map some ↔ t.Stores edgeData := by
  cases hb : isBundled t.properties with
  | true =>
    rw [readData_withEdge_old hrow (.inl hb), Stores, if_pos hb]
    rw [entryData, if_pos hb] at hd
    unfold readData
    rw [if_pos hb]
    rcases properties_of_isBundled hb with hprops | ⟨p, hprops⟩ <;>
      rcases edgeData with - | ⟨v, - | ⟨w, rest⟩⟩ <;> cases hty : t.csrType <;>
      simp only [bundledData, hty, hprops, isEmpty_nil, if_true, reduceCtorEq,
        some.injEq, isEmpty_cons, if_false] at hd <;>
      subst hd <;> simp [hprops]
  | false =>
    have hnot : ¬ isBundled t.properties = true := by
      rw [hb]
      exact Bool.false_ne_true
    rw [entryData] at hd
    split_ifs at hd with hlen
    have htakes : t.table.TakesRow t.tableIdx edgeData := by
      rw [writeRow, if_neg hnot] at hrow
      exact Table.takesRow_of_insert hrow
    rw [Stores, if_neg hnot]
    unfold rowData at hd
    split at hd
    case h_1 hty =>
      -- the CSRs have no data, and the values are in a row that no entry names
      cases hd
      refine iff_of_false (fun hread => ?_) fun h => by simp [hty] at h
      rw [readData_withEdge_old hrow (.inr (by simp))] at hread
      unfold readData at hread
      cases hprops : t.properties with
      | nil => simp [hprops, isBundled] at hnot
      | cons p ps =>
        cases edgeData with
        | nil => simp [hprops] at hlen
        | cons v vs => simp [hprops] at hread
    case h_2 hty =>
      cases hd
      exact iff_of_true (readData_withEdge_row hrow hb hlen) ⟨hty, hlen.symm, htakes⟩
    case h_3 => cases hd

end

section

variable {α β : Type} {l : List α} {f f' : α → β} {a b : β} {p : β → Bool}

/-- Two readings of one list that agree on `p` leave the added elements to agree as well. -/
theorem added_eq_of_perm (hperm : (b :: l.map f').Perm (a :: l.map f))
    (hp : ∀ e ∈ l, p (f' e) = p (f e)) : p b = p a := by
  have hsame : l.countP (p ∘ f') = l.countP (p ∘ f) :=
    countP_congr fun e he => by simp [hp e he]
  have hcount := hperm.countP_eq p
  rw [countP_cons, countP_map, hsame] at hcount
  cases hb : p b <;> cases ha : p a <;> simp [hb, ha] at hcount ⊢

/-- A reading whose `p`-elements are among those of another, and as many, has all of them. -/
theorem kept_of_countP_eq (hcount : l.countP (p ∘ f') = l.countP (p ∘ f))
    (hp : ∀ e ∈ l, p (f' e) = true → p (f e) = true) :
    ∀ e ∈ l, p (f e) = true → p (f' e) = true := by
  induction l with
  | nil => simp
  | cons x l ih =>
    obtain ⟨hx, hl⟩ := forall_mem_cons.mp hp
    have hle : l.countP (p ∘ f') ≤ l.countP (p ∘ f) := countP_mono_left hl
    rw [countP_cons, countP_cons] at hcount
    simp only [Function.comp_apply] at hcount
    have hhead : p (f x) = true → p (f' x) = true := by
      intro hfx
      by_contra hfx'
      simp only [hfx, hfx'] at hcount
      simp at hcount
      omega
    refine forall_mem_cons.mpr ⟨hhead, ih ?_ hl⟩
    have hiff : p (f' x) = true ↔ p (f x) = true := ⟨hx, hhead⟩
    simp only [hiff] at hcount
    omega

end

theorem entryData_unbundled (hb : isBundled t.properties = false)
    (hd : t.entryData edgeData = some d) :
    t.properties.length = edgeData.length ∧ (d = .row t.tableIdx ∨ d = .empty) := by
  rw [entryData, if_neg (Bool.eq_false_iff.mp hb)] at hd
  split_ifs at hd with hlen
  refine ⟨hlen, ?_⟩
  unfold rowData at hd
  split at hd
  · exact .inr (some.inj hd).symm
  · exact .inl (some.inj hd).symm
  · cases hd

theorem takesRow_of_writeRow (hb : isBundled t.properties = false)
    (hrow : t.writeRow edgeData = some (tab, .ok ())) : t.table.TakesRow t.tableIdx edgeData := by
  rw [writeRow, if_neg (Bool.eq_false_iff.mp hb)] at hrow
  exact Table.takesRow_of_insert hrow

theorem readData_row_ne_empty (hb : isBundled t.properties = false)
    (hlen : t.properties.length = edgeData.length) (htakes : t.table.TakesRow t.tableIdx edgeData) :
    t.readData (.row t.tableIdx) ≠ t.readData .empty := by
  intro heq
  rw [readData_row t hb] at heq
  unfold readData at heq
  rw [if_neg (Bool.eq_false_iff.mp hb)] at heq
  cases hprops : t.properties with
  | nil => simp [hprops, isBundled] at hb
  | cons p ps =>
    have hcount : t.properties.length = t.table.columns.length := hlen.trans htakes.1
    have hpos : 0 < t.table.columns.length := by
      rw [← hcount, hprops]
      exact Nat.succ_pos _
    obtain ⟨c, cols, hcols⟩ := exists_cons_of_length_pos hpos
    have hcell := htakes.2 c (hcols ▸ mem_cons_self)
    rw [hprops, length_cons, range_succ_eq_map] at heq
    have hhead := (cons.inj heq).1
    simp [Table.row, hcols, getElem?_eq_getElem hcell] at hhead

variable (ts src dst) in
theorem reread_perm_iff (hrow : t.writeRow edgeData = some (tab, .ok ()))
    (hd : t.entryData edgeData = some d) (l : List (ℕ × ℕ × EdgeData V))
    (ends : ℕ × ℕ × EdgeData V → ℕ × ℕ) : ((src, dst, (t.withEdge src dst d ts tab).readData d) ::
        l.map fun e => ((ends e).1, (ends e).2, (t.withEdge src dst d ts tab).readData e.2.2)).Perm
      ((src, dst, edgeData.map some) :: l.map fun e => ((ends e).1, (ends e).2, t.readData e.2.2)) ↔
    t.Stores edgeData ∧ (isBundled t.properties = false → ∀ e ∈ l,
      e.2.2 = .row t.tableIdx → t.readData (.row t.tableIdx) = edgeData.map some) := by
  classical
  have hold : ∀ e : ℕ × ℕ × EdgeData V, isBundled t.properties = true ∨ e.2.2 ≠ .row t.tableIdx →
      (t.withEdge src dst d ts tab).readData e.2.2 = t.readData e.2.2 := fun e he =>
    readData_withEdge_old hrow he
  have hnew : (t.withEdge src dst d ts tab).readData d = edgeData.map some ↔ t.Stores edgeData :=
    readData_withEdge_new_iff hrow hd
  constructor
  · intro hperm
    have hread : (t.withEdge src dst d ts tab).readData d = edgeData.map some := by
      by_contra hne
      -- nothing else reads like the new edge, so that it would be missing on the other side
      have hadded := added_eq_of_perm (p := fun x =>
        decide (x = (src, dst, (t.withEdge src dst d ts tab).readData d))) hperm fun e _ => ?_
      · simp only [decide_true, true_eq_decide_iff, Prod.mk.injEq, true_and] at hadded
        exact hne hadded.symm
      by_cases hcase : isBundled t.properties = true ∨ e.2.2 ≠ .row t.tableIdx
      · rw [hold e hcase]
      obtain ⟨hb, hdata⟩ := not_or.mp hcase
      have hb : isBundled t.properties = false := Bool.not_eq_true _ ▸ hb
      obtain ⟨hlen, rfl | rfl⟩ := entryData_unbundled hb hd
      · exact absurd (readData_withEdge_row hrow hb hlen) hne
      · have hempty : (t.withEdge src dst .empty ts tab).readData .empty = t.readData .empty :=
          readData_withEdge_old hrow (.inr (by simp))
        rw [not_not.mp hdata, readData_withEdge_row hrow hb hlen, hempty]
        rw [hempty] at hne
        have hrowne := readData_row_ne_empty hb hlen (takesRow_of_writeRow hb hrow)
        simp [Ne.symm hne, hrowne]
    refine ⟨hnew.mp hread, fun hb e he hdata => ?_⟩
    obtain ⟨hlen, -⟩ := entryData_unbundled hb hd
    rw [hread] at hperm
    have hcount := ((perm_cons _).mp hperm).countP_eq fun x => decide (x.2.2 ≠ edgeData.map some)
    rw [countP_map, countP_map] at hcount
    by_contra hne
    have hkept := kept_of_countP_eq hcount (fun x _ hx => ?_) e he ?_
    · rw [hdata, readData_withEdge_row hrow hb hlen] at hkept
      simp at hkept
    · have hother : x.2.2 ≠ .row t.tableIdx := by
        intro heq
        rw [heq, readData_withEdge_row hrow hb hlen] at hx
        simp at hx
      rwa [hold x (.inr hother)] at hx
    · rw [hdata]
      exact decide_eq_true hne
  · rintro ⟨hstores, hfresh⟩
    rw [hnew.mpr hstores]
    refine List.Perm.of_eq (congrArg _ (map_congr_left fun e he => ?_))
    by_cases hcase : isBundled t.properties = true ∨ e.2.2 ≠ .row t.tableIdx
    · rw [hold e hcase]
    · obtain ⟨hb, hdata⟩ := not_or.mp hcase
      have hb : isBundled t.properties = false := Bool.not_eq_true _ ▸ hb
      rw [Stores, if_neg (Bool.eq_false_iff.mp hb)] at hstores
      rw [not_not.mp hdata, hfresh hb e he (not_not.mp hdata),
        readData_withEdge_row hrow hb hstores.2.1.symm]

section

variable (hdst : dst < t.inCsr.size) (hsrc : src < t.outCsr.size)

include hsrc in
theorem outgoing_withEdge : ((t.withEdge src dst d ts tab).outgoing ts).Perm
    ((src, dst, (t.withEdge src dst d ts tab).readData d) :: (t.outCsr.view ts).map fun e =>
        (e.1, e.2.1, (t.withEdge src dst d ts tab).readData e.2.2)) := by
  have hvisible : (⟨dst, ts, d⟩ : Nbr (EdgeData V)).visible ts = true := decide_eq_true le_rfl
  exact (MutableCsr.view_push_perm hsrc hvisible).map
    fun e => (e.1, e.2.1, (t.withEdge src dst d ts tab).readData e.2.2)

include hdst in
theorem incoming_withEdge : ((t.withEdge src dst d ts tab).incoming ts).Perm
    ((src, dst, (t.withEdge src dst d ts tab).readData d) :: (t.inCsr.view ts).map fun e =>
        (e.2.1, e.1, (t.withEdge src dst d ts tab).readData e.2.2)) := by
  have hvisible : (⟨src, ts, d⟩ : Nbr (EdgeData V)).visible ts = true := decide_eq_true le_rfl
  exact (MutableCsr.view_push_perm hdst hvisible).map
    fun e => (e.2.1, e.1, (t.withEdge src dst d ts tab).readData e.2.2)

include hdst hsrc in
theorem gains_withEdge_iff (hrow : t.writeRow edgeData = some (tab, .ok ()))
    (hd : t.entryData edgeData = some d) :
    Gains ts src dst edgeData t (t.withEdge src dst d ts tab) ↔
      t.Stores edgeData ∧ (isBundled t.properties = false →
        ∀ e ∈ t.outCsr.view ts ++ t.inCsr.view ts, e.2.2 = .row t.tableIdx →
          t.readData (.row t.tableIdx) = edgeData.map some) := by
  have hout := reread_perm_iff ts src dst hrow hd (t.outCsr.view ts) fun e => (e.1, e.2.1)
  have hin := reread_perm_iff ts src dst hrow hd (t.inCsr.view ts) fun e => (e.2.1, e.1)
  have hgains : Gains ts src dst edgeData t (t.withEdge src dst d ts tab) ↔ _ :=
    and_congr (((outgoing_withEdge hsrc).congr_left _).trans hout)
      (((incoming_withEdge hdst).congr_left _).trans hin)
  rw [hgains]
  constructor
  · rintro ⟨⟨hstores, hfresh⟩, -, hfresh'⟩
    exact ⟨hstores, fun hb e he => (mem_append.mp he).elim (hfresh hb e) (hfresh' hb e)⟩
  · rintro ⟨hstores, hfresh⟩
    exact ⟨⟨hstores, fun hb e he => hfresh hb e (mem_append_left _ he)⟩,
      hstores, fun hb e he => hfresh hb e (mem_append_right _ he)⟩

end

theorem entry_of_stores (h : t.Stores edgeData) : ∃ d tab, t.entryData edgeData = some d ∧
    t.writeRow edgeData = some (tab, .ok ()) := by
  unfold Stores at h
  unfold entryData writeRow
  split_ifs at h ⊢ with hb hlen
  · have hdata : ∃ d, t.bundledData edgeData = some d := by
      rcases h with ⟨hprops, hty, rfl⟩ | ⟨-, hty, hlen⟩
      · exact ⟨.empty, by simp [bundledData, hty, hprops]⟩
      · obtain ⟨ty, hty⟩ := ne_none_iff_exists'.mp hty
        obtain ⟨v, rfl⟩ := length_eq_one_iff.mp hlen
        exact ⟨.value v, by simp [bundledData, hty]⟩
    obtain ⟨d, hd⟩ := hdata
    exact ⟨d, t.table, hd, rfl⟩
  · obtain ⟨hty, -, htakes⟩ := h
    obtain ⟨tab, hins, -⟩ := Table.insert_of_takesRow htakes
    exact ⟨.row t.tableIdx, tab, by rw [rowData, hty], hins⟩
  · exact absurd h.2.1.symm hlen

/-- `AddEdge` succeeds and adds exactly its edge where the table accepts it. -/
theorem addEdge_gains_iff :
    (∃ t', addEdge src dst edgeData ts t = some (.ok (), t') ∧ Gains ts src dst edgeData t t') ↔
      t.Accepts src dst edgeData ts := by
  constructor
  · rintro ⟨t', hadd, hgains⟩
    obtain ⟨hdst, hsrc, d, tab, hd, hrow, rfl⟩ := addEdge_ok hadd
    obtain ⟨hstores, hfresh⟩ := (gains_withEdge_iff hdst hsrc hrow hd).mp hgains
    exact ⟨hdst, hsrc, hstores, hfresh⟩
  · intro h
    obtain ⟨d, tab, hd, hrow⟩ := entry_of_stores h.stored
    exact ⟨_, addEdge_apply h.inn h.out hd hrow,
      (gains_withEdge_iff h.inn h.out hrow hd).mpr ⟨h.stored, h.fresh⟩⟩

end EdgeTable

end Neug.Storage
