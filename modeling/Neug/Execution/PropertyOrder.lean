import Neug.Execution.Value

/-! The comparison operators of `Interval` and `Property`. -/
namespace Neug.Execution

namespace Interval

/-- `Interval::normalize`: months, days and micros after whole days and months were carried. -/
def normalize (i : Interval) : ℤ × ℤ × ℤ :=
  let carryDays := i.micros.toInt.tdiv 86400000000
  let days := i.days.toInt + carryDays
  let carryMonths := days.tdiv 30
  (i.months.toInt + carryMonths, days - carryMonths * 30,
    i.micros.toInt - carryDays * 86400000000)

def eq (a b : Interval) : Bool := a = b ∨ a.normalize = b.normalize

def gt (a b : Interval) : Bool :=
  let (months, days, micros) := a.normalize
  let (months', days', micros') := b.normalize
  if months' < months then true
  else if months < months' then false
  else if days' < days then true
  else if days < days' then false
  else micros' < micros

def lt (a b : Interval) : Bool := b.gt a

/-- The duration in micros, with months of 30 days. -/
def total (i : Interval) : ℤ :=
  (i.months.toInt * 30 + i.days.toInt) * 86400000000 + i.micros.toInt

/-- The operators compare the durations of two intervals. -/
structure Agrees (a b : Interval) : Prop where
  eq : a.eq b = true ↔ a.total = b.total
  lt : a.lt b = true ↔ a.total < b.total
  gt : a.gt b = true ↔ b.total < a.total

/-- After normalisation `b` has one month more, or as many months and one day more, and the smaller
units of `a` make up for it. -/
def Outweighs (a b : Interval) : Prop :=
  let (months, days, micros) := a.normalize
  let (months', days', micros') := b.normalize
  months' = months + 1 ∧ (days' + 30) * 86400000000 + micros' ≤ days * 86400000000 + micros ∨
    months' = months ∧ days' = days + 1 ∧ micros' + 86400000000 ≤ micros

theorem abs_sub_tdiv_mul_lt (x : ℤ) {k : ℤ} (hk : 0 < k) : |x - x.tdiv k * k| < k := by
  rw [mul_comm, ← Int.tmod_def]
  exact abs_lt.mpr ⟨Int.lt_tmod_of_pos x hk, Int.tmod_lt_of_pos x hk⟩

theorem normalize_spec (i : Interval) : ∃ months days micros, i.normalize = (months, days, micros) ∧
    |days| < 30 ∧ |micros| < 86400000000 ∧
      i.total = (months * 30 + days) * 86400000000 + micros := by
  refine ⟨_, _, _, rfl, abs_sub_tdiv_mul_lt _ (by decide), abs_sub_tdiv_mul_lt _ (by decide), ?_⟩
  unfold total
  ring

/-- Comparison agrees with duration exactly if neither interval outweighs a larger unit of the
other one with its smaller units. -/
theorem agrees_iff (a b : Interval) : a.Agrees b ↔ ¬ a.Outweighs b ∧ ¬ b.Outweighs a := by
  obtain ⟨m, d, u, ha, hd, hu, hta⟩ := a.normalize_spec
  obtain ⟨m', d', u', hb, hd', hu', htb⟩ := b.normalize_spec
  rw [abs_lt] at hd hu hd' hu'
  have heq : a.eq b = true ↔ m = m' ∧ d = d' ∧ u = u' := by
    simp only [eq, decide_eq_true_eq]
    constructor
    · rintro (rfl | h)
      · simpa [ha] using hb
      · simpa [ha, hb] using h
    · rintro ⟨rfl, rfl, rfl⟩
      exact .inr (ha.trans hb.symm)
  have hgt : ∀ {x y : Interval} {m d u m' d' u' : ℤ}, x.normalize = (m, d, u) →
      y.normalize = (m', d', u') → (x.gt y = true ↔
        m' < m ∨ m' = m ∧ (d' < d ∨ d' = d ∧ u' < u)) := by
    intro x y m d u m' d' u' hx hy
    simp only [gt, hx, hy]
    split_ifs <;> simp <;> omega
  have hagrees : a.Agrees b ↔ (a.eq b = true ↔ a.total = b.total) ∧
      (a.lt b = true ↔ a.total < b.total) ∧ (a.gt b = true ↔ b.total < a.total) :=
    ⟨fun h => ⟨h.eq, h.lt, h.gt⟩, fun h => ⟨h.1, h.2.1, h.2.2⟩⟩
  rw [hagrees, heq, lt, hgt hb ha, hgt ha hb]
  simp only [Outweighs, ha, hb]
  omega

/-- A month less a day has the duration of 29 days and compares as greater. -/
theorem not_agrees_month_less_day :
    let a : Interval := ⟨1, -1, 0⟩
    let b : Interval := ⟨0, 29, 0⟩
    a.total = b.total ∧ a.eq b = false ∧ a.gt b = true := by
  decide

end Interval

def Date.toU32 (d : Date) : BitVec 32 := d.year ++ d.month ++ d.day ++ d.hour

/-- The types of properties other than floating-point numbers. -/
inductive PropertyType where
  | empty | boolean | int32 | uint32 | int64 | uint64 | varchar | date | timestampMs | interval
  deriving DecidableEq

/-- The number of the `DataTypeId`. -/
def PropertyType.id : PropertyType → ℕ
  | boolean => 10
  | int32 => 13
  | int64 => 14
  | date => 15
  | timestampMs => 18
  | varchar => 25
  | interval => 27
  | uint32 => 30
  | uint64 => 31
  | empty => 203

inductive Property where
  | empty
  | boolean (b : Bool)
  | int32 (v : BitVec 32)
  | uint32 (v : BitVec 32)
  | int64 (v : BitVec 64)
  | uint64 (v : BitVec 64)
  | varchar (s : List UInt8)
  | date (d : Date)
  | timestampMs (millis : BitVec 64)
  | interval (i : Interval)

namespace Property

def type : Property → PropertyType
  | empty => .empty
  | boolean _ => .boolean
  | int32 _ => .int32
  | uint32 _ => .uint32
  | int64 _ => .int64
  | uint64 _ => .uint64
  | varchar _ => .varchar
  | date _ => .date
  | timestampMs _ => .timestampMs
  | interval _ => .interval

/-- `Property::operator==`, which has no branch for dates, timestamps and intervals. -/
def eq : Property → Property → Bool
  | int32 x, int32 y | uint32 x, uint32 y => x = y
  | varchar x, varchar y => x = y
  | empty, empty => true
  | int64 x, int64 y | uint64 x, uint64 y => x = y
  | boolean x, boolean y => x = y
  | _, _ => false

/-- `Property::operator<`. -/
def lt : Property → Property → Bool
  | int32 x, int32 y => x.toInt < y.toInt
  | int64 x, int64 y => x.toInt < y.toInt
  | varchar x, varchar y => x.map UInt8.toNat < y.map UInt8.toNat
  | empty, empty => false
  | uint32 x, uint32 y => x.toNat < y.toNat
  | uint64 x, uint64 y => x.toNat < y.toNat
  | boolean x, boolean y => x < y
  | date x, date y => x.toU32.toNat < y.toU32.toNat
  | timestampMs x, timestampMs y => x.toInt < y.toInt
  | interval x, interval y => x.lt y
  | x, y => x.type.id < y.type.id

def Of (t : PropertyType) : Type := { x : Property // x.type = t }

/-- The laws of `==` and `<` on the values of one type. -/
structure TotallyOrdered (t : PropertyType) : Prop where
  exactly_one : ∀ x y : Of t, [x.1.lt y.1, x.1.eq y.1, y.1.lt x.1].count true = 1
  equivalence : Equivalence fun x y : Of t => x.1.eq y.1 = true
  lt_trans : ∀ x y z : Of t, x.1.lt y.1 = true → y.1.lt z.1 = true → x.1.lt z.1 = true

/-- The types whose values `==` compares. -/
def Compared (t : PropertyType) : Prop := t ≠ .date ∧ t ≠ .timestampMs ∧ t ≠ .interval

/-- A value as an element of a linear order. -/
def key : Property → ℤ ×ₗ List ℕ
  | boolean b => toLex (b.toNat, [])
  | int32 v => toLex (v.toInt, [])
  | int64 v => toLex (v.toInt, [])
  | uint32 v => toLex (v.toNat, [])
  | uint64 v => toLex (v.toNat, [])
  | varchar s => toLex (0, s.map UInt8.toNat)
  | _ => toLex (0, [])

variable {t : PropertyType}

theorem eq_iff_key (h : Compared t) (x y : Of t) : x.1.eq y.1 = true ↔ x.1.key = y.1.key := by
  obtain ⟨x, rfl⟩ := x
  obtain ⟨y, hy⟩ := y
  cases x <;> cases y <;> simp [type, eq, key, Compared, BitVec.toInt_inj, BitVec.toNat_inj,
    (List.map_injective_iff.mpr fun _ _ => UInt8.toNat_inj.mp).eq_iff] at h hy ⊢
  case boolean.boolean b b' => cases b <;> cases b' <;> decide

theorem lt_iff_key (h : Compared t) (x y : Of t) : x.1.lt y.1 = true ↔ x.1.key < y.1.key := by
  obtain ⟨x, rfl⟩ := x
  obtain ⟨y, hy⟩ := y
  cases x <;> cases y <;> simp [type, lt, key, Compared, Prod.Lex.toLex_lt_toLex] at h hy ⊢
  case boolean.boolean b b' => cases b <;> cases b' <;> decide

theorem exactly_one_of_compared (h : Compared t) (x y : Of t) :
    [x.1.lt y.1, x.1.eq y.1, y.1.lt x.1].count true = 1 := by
  have hlt := lt_iff_key h x y
  have heq := eq_iff_key h x y
  have hgt := lt_iff_key h y x
  rcases lt_trichotomy x.1.key y.1.key with hxy | hxy | hxy
  · simp_all [hxy.ne, hxy.not_gt]
  · simp_all
  · simp_all [hxy.ne', hxy.not_gt]

/-- Exactly the dates, the timestamps and the intervals break the laws. -/
theorem totallyOrdered_iff (t : PropertyType) : TotallyOrdered t ↔ Compared t := by
  constructor
  · intro h
    refine ⟨?_, ?_, ?_⟩
    · rintro rfl
      simpa [eq] using h.equivalence.refl ⟨date ⟨0, 0, 0, 0⟩, rfl⟩
    · rintro rfl
      simpa [eq] using h.equivalence.refl ⟨timestampMs 0, rfl⟩
    · rintro rfl
      simpa [eq] using h.equivalence.refl ⟨interval ⟨0, 0, 0⟩, rfl⟩
  · intro h
    refine ⟨exactly_one_of_compared h, ?_, fun x y z => ?_⟩
    · simp only [eq_iff_key h]
      exact ⟨fun _ => rfl, .symm, .trans⟩
    · simp only [lt_iff_key h]
      exact lt_trans

/-- A timestamp does not equal itself. -/
theorem timestamp_not_eq_self : (timestampMs 0).eq (timestampMs 0) = false := rfl

end Property

end Neug.Execution
