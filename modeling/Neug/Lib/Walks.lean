import Mathlib

/-! Walks along hops. Every node has a list of hops, every hop leads to a node, and a walk is a
list of hops with the latest one first. -/
namespace Neug.Lib
open List Option

variable {α β γ : Type}

/-- The list holds exactly the elements that satisfy `P`, each of them once. -/
def Enumerates (l : List γ) (P : γ → Prop) : Prop := l.Nodup ∧ ∀ x, x ∈ l ↔ P x

theorem Enumerates.congr {l : List γ} {P Q : γ → Prop} (h : Enumerates l P)
    (heq : ∀ x, P x ↔ Q x) : Enumerates l Q :=
  ⟨h.1, fun x => (h.2 x).trans (heq x)⟩

theorem Enumerates.exists_iff {r : Option (List γ)} {l : List γ} {P Q : γ → Prop}
    (h : Enumerates l P) (hr : r = some l) :
    (∃ l, r = some l ∧ Enumerates l Q) ↔ ∀ x, P x ↔ Q x := by
  constructor
  · rintro ⟨l', hl', hQ⟩ x
    obtain rfl := some.inj (hr.symm.trans hl')
    exact (h.2 x).symm.trans (hQ.2 x)
  · exact fun heq => ⟨l, hr, h.congr heq⟩

structure Moves (α β : Type) where
  next : α → List β
  target : β → α

namespace Moves

variable (m : Moves α β) {a : α} {b : β} {w : List β} {n : ℕ}

/-- The node where a walk from `a` ends. -/
def last (a : α) : List β → α
  | [] => a
  | b :: _ => m.target b

def IsWalk (a : α) : List β → Prop
  | [] => True
  | b :: w => IsWalk a w ∧ b ∈ m.next (m.last a w)

def extend (a : α) (w : List β) : List (List β) := (m.next (m.last a w)).map (· :: w)

def walks (a : α) : ℕ → List (List β)
  | 0 => [[]]
  | n + 1 => (walks a n).flatMap (m.extend a)

@[simp] theorem last_nil (a : α) : m.last a [] = a := rfl

@[simp] theorem last_cons (a : α) (b : β) (w : List β) : m.last a (b :: w) = m.target b := rfl

@[simp] theorem isWalk_nil (a : α) : m.IsWalk a [] := trivial

theorem isWalk_cons : m.IsWalk a (b :: w) ↔ m.IsWalk a w ∧ b ∈ m.next (m.last a w) := .rfl

theorem mem_extend {w' : List β} :
    w' ∈ m.extend a w ↔ ∃ b ∈ m.next (m.last a w), b :: w = w' := mem_map

theorem mem_walks : w ∈ m.walks a n ↔ m.IsWalk a w ∧ w.length = n := by
  induction n generalizing w with
  | zero =>
    rw [walks, mem_singleton, length_eq_zero_iff]
    constructor
    · rintro rfl
      exact ⟨m.isWalk_nil a, rfl⟩
    · exact And.right
  | succ n ih =>
    rw [walks, mem_flatMap]
    constructor
    · rintro ⟨w', hw', hw⟩
      obtain ⟨b, hb, rfl⟩ := m.mem_extend.mp hw
      obtain ⟨hwalk, hlen⟩ := ih.mp hw'
      exact ⟨⟨hwalk, hb⟩, by rw [length_cons, hlen]⟩
    · rintro ⟨hwalk, hlen⟩
      cases w with
      | nil => cases hlen
      | cons b w =>
        exact ⟨w, ih.mpr ⟨hwalk.1, by simpa using hlen⟩, m.mem_extend.mpr ⟨b, hwalk.2, rfl⟩⟩

theorem nodup_walks (h : ∀ a, (m.next a).Nodup) : (m.walks a n).Nodup := by
  induction n with
  | zero => exact nodup_singleton _
  | succ n ih =>
    refine nodup_flatMap.mpr ⟨fun w _ => (h _).map fun _ _ heq => (cons.inj heq).1, ?_⟩
    refine ih.imp fun {w w'} hne => ?_
    -- two walks of the next length differ where their first parts differ
    rintro x hx hx'
    obtain ⟨b, -, rfl⟩ := m.mem_extend.mp hx
    obtain ⟨b', -, heq⟩ := m.mem_extend.mp hx'
    exact hne (cons.inj heq).2.symm

section

variable (ok : List β → β → Bool) (listed stops : List β → Bool)

def Guarded (a : α) : List β → Prop
  | [] => True
  | b :: w => Guarded a w ∧ b ∈ m.next (m.last a w) ∧ ok w b = true

/-- Depth-first expansion. The walks that are listed need not be those where it stops. -/
def dfs (a : α) : ℕ → List β → List (List β)
  | 0, _ => []
  | fuel + 1, w =>
    (if listed w then [w] else []) ++
      if stops w then []
      else ((m.next (m.last a w)).filter (ok w)).flatMap fun b => dfs a fuel (b :: w)

variable {ok listed stops}

theorem Guarded.isWalk (h : m.Guarded ok a w) : m.IsWalk a w := by
  induction w with
  | nil => exact m.isWalk_nil a
  | cons b w ih => exact ⟨ih h.1, h.2.1⟩

theorem Guarded.of_suffix {w' : List β} (h : m.Guarded ok a w') (hw : w <:+ w') :
    m.Guarded ok a w := by
  induction w' with
  | nil =>
    rw [suffix_nil.mp hw]
    exact h
  | cons b w' ih =>
    rcases suffix_cons_iff.mp hw with rfl | hw
    · exact h
    · exact ih h.1 hw

theorem suffix_of_mem_dfs {fuel : ℕ} {w' : List β} (h : w' ∈ m.dfs ok listed stops a fuel w) :
    w <:+ w' := by
  induction fuel generalizing w with
  | zero => cases h
  | succ fuel ih =>
    rw [dfs, mem_append] at h
    rcases h with h | h
    · split_ifs at h
      · rw [mem_singleton.mp h]
      · cases h
    · split_ifs at h
      · cases h
      · obtain ⟨b, -, hb⟩ := mem_flatMap.mp h
        exact (suffix_cons b w).trans (ih hb)

/-- With enough fuel, the listed continuations of `w` are found on which the expansion did not stop
before. -/
theorem mem_dfs {N fuel : ℕ} (hbound : ∀ v, m.Guarded ok a v → v.length < N)
    (hfuel : N ≤ fuel + w.length) (hw : m.Guarded ok a w) {w' : List β} :
    w' ∈ m.dfs ok listed stops a fuel w ↔ w <:+ w' ∧ m.Guarded ok a w' ∧ listed w' = true ∧
      ∀ v, w <:+ v → v <:+ w' → v ≠ w' → stops v = false := by
  induction fuel generalizing w with
  | zero =>
    have := hbound w hw
    omega
  | succ fuel ih =>
    rw [dfs, mem_append]
    constructor
    · rintro (h | h)
      · split_ifs at h with hlist
        · obtain rfl := mem_singleton.mp h
          exact ⟨suffix_rfl, hw, hlist, fun v hv hv' hne => absurd (hv'.eq_of_length_le
            hv.length_le) hne⟩
        · cases h
      · split_ifs at h with hstop
        · cases h
        · obtain ⟨b, hb, hmem⟩ := mem_flatMap.mp h
          obtain ⟨hnext, hok⟩ := mem_filter.mp hb
          have hbw : m.Guarded ok a (b :: w) := ⟨hw, hnext, hok⟩
          obtain ⟨hsuf, hguard, hlist, hbefore⟩ := (ih (by rw [length_cons]; omega) hbw).mp hmem
          refine ⟨(suffix_cons b w).trans hsuf, hguard, hlist, fun v hv hv' hne => ?_⟩
          by_cases heq : w = v
          · rw [← heq]
            exact Bool.eq_false_iff.mpr hstop
          · -- a longer walk continues with the same hop
            refine hbefore v (suffix_of_suffix_length_le hsuf hv' ?_) hv' hne
            exact lt_of_le_of_ne hv.length_le fun hlen => heq (hv.eq_of_length hlen)
    · rintro ⟨hsuf, hguard, hlist, hbefore⟩
      by_cases heq : w = w'
      · subst heq
        exact .inl (by rw [if_pos hlist]; exact mem_singleton_self _)
      right
      -- the first hop after `w`
      rw [if_neg (Bool.eq_false_iff.mp (hbefore w suffix_rfl hsuf heq))]
      obtain ⟨s, rfl⟩ := hsuf
      obtain ⟨b, s', rfl⟩ : ∃ b s', s = s' ++ [b] := by
        rcases eq_nil_or_concat s with rfl | ⟨s', b, rfl⟩
        · exact absurd rfl heq
        · exact ⟨b, s', concat_eq_append⟩
      have hb : b :: w <:+ s' ++ [b] ++ w := ⟨s', by simp⟩
      have hbw : m.Guarded ok a (b :: w) := hguard.of_suffix m hb
      refine mem_flatMap.mpr ⟨b, mem_filter.mpr hbw.2, ?_⟩
      exact (ih (by rw [length_cons]; omega) hbw).mpr ⟨hb, hguard, hlist,
        fun v hv => hbefore v ((suffix_cons b w).trans hv)⟩

theorem nodup_dfs (h : ∀ a, (m.next a).Nodup) (fuel : ℕ) (w : List β) :
    (m.dfs ok listed stops a fuel w).Nodup := by
  induction fuel generalizing w with
  | zero => exact nodup_nil
  | succ fuel ih =>
    refine List.Nodup.append ?_ ?_ ?_
    · split_ifs
      · exact nodup_singleton w
      · exact nodup_nil
    · split_ifs
      · exact nodup_nil
      · refine nodup_flatMap.mpr ⟨fun b _ => ih (b :: w), ?_⟩
        refine ((h _).filter _).imp fun {b b'} hne => ?_
        -- the hop after `w` is the same in everything listed from it on
        rintro x hx hx'
        have hsuf := suffix_of_suffix_length_le (suffix_of_mem_dfs m hx)
          (suffix_of_mem_dfs m hx') (by simp)
        exact hne (cons.inj (hsuf.eq_of_length (by simp))).1
    · intro x hx hx'
      split_ifs at hx hx'
      · cases hx'
      · obtain rfl := mem_singleton.mp hx
        obtain ⟨b, -, hb⟩ := mem_flatMap.mp hx'
        have hlen := (suffix_of_mem_dfs m hb).length_le
        rw [length_cons] at hlen
        omega
      all_goals cases hx

end

end Moves

end Neug.Lib
